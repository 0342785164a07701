import GrammarLookahead.Proofs.Lookahead.Inbounds
import GrammarLookahead.Proofs.Lookahead.Skipping
import Mathlib.Data.Finset.Card
import Mathlib.Data.Finset.Prod
import Mathlib.Data.List.Infix

namespace GrammarLookahead

open Relation

variable {g : Grammar} {i : Inquiry} {o p : Context} {id : ElementId} {l stack : List ElementId}
  {s t : Inquiry × Context}

namespace Context

theorem Faithful.eq_of_marks (ho : o.Faithful g) (hp : p.Faithful g)
    (h : ∀ id, o.Marks id ↔ p.Marks id) : o = p := by
  have hget : ∀ id, o.get? id = p.get? id := by
    intro id
    cases hid : o.get? id with
    | none =>
      have hnot : ¬ p.Marks id := fun hm => by
        simpa [Marks, hid] using (h id).mpr hm
      exact (Option.not_isSome_iff_eq_none.mp hnot).symm
    | some c =>
      obtain ⟨c', hc'⟩ := Option.isSome_iff_exists.mp ((h id).mp (by simp [Marks, hid]))
      rw [hc', ho id c hid, hp id c' hc']
  obtain ⟨o⟩ := o
  obtain ⟨p⟩ := p
  exact congrArg Context.mk (Std.ExtTreeMap.ext_getElem? fun {id} => hget id)

/-- The indices of the elements with a mark. -/
def marked (g : Grammar) (o : Context) : Finset Nat :=
  (Finset.range g.elements.size).filter fun i => (o.get? ⟨i⟩).isSome = true

theorem Inside.mem_marked (ho : o.Inside g) {id : ElementId} :
    id.index ∈ o.marked g ↔ o.Marks id := by
  rw [marked, Finset.mem_filter, Finset.mem_range]
  exact ⟨fun h => h.2, fun h => ⟨(ho id h).index_lt, h⟩⟩

theorem marked_subset (hle : o ≤ p) : o.marked g ⊆ p.marked g := by
  intro i hi
  obtain ⟨hrange, hmark⟩ := Finset.mem_filter.mp hi
  exact Finset.mem_filter.mpr ⟨hrange, hle ⟨i⟩ hmark⟩

/-- A context that grows has more marks, or it is as it was. -/
theorem Faithful.eq_of_card_le (ho : o.Faithful g) (hp : p.Faithful g) (hi : o.Inside g)
    (hi' : p.Inside g) (hle : o ≤ p) (hcard : (p.marked g).card ≤ (o.marked g).card) : o = p := by
  have heq : o.marked g = p.marked g := Finset.eq_of_subset_of_card_le (marked_subset hle) hcard
  refine ho.eq_of_marks hp fun id => ?_
  rw [← hi.mem_marked, heq, hi'.mem_marked]

end Context

/-- The inquiries with a level of their own that a search with the stack can come to. -/
def Grammar.searches (g : Grammar) (stack : List ElementId) : Finset Inquiry :=
  (g.elementIds.map Inquiry.openings ++ g.elementIds.map (fun id => Inquiry.continuations [id]) ++
    stack.tails.map Inquiry.continuations).toFinset

/-- An inquiry with a stack has a part of the given one, or a single element. -/
def Inquiry.Within (stack : List ElementId) : Inquiry → Prop
  | .continuations calls => calls <:+ stack ∨ ∃ id, calls = [id]
  | _ => True

theorem Asks.within (h : Asks g s t) (hs : s.1.Within stack) : t.1.Within stack := by
  have htail : ∀ {id calls}, Inquiry.Within stack (.continuations (id :: calls)) →
      Inquiry.Within stack (.continuations calls) := by
    rintro id calls (hsuffix | ⟨_, hid⟩)
    · exact .inl ((List.suffix_cons id calls).trans hsuffix)
    · cases hid
      exact .inl List.nil_suffix
  cases h with
  | unwrap hu => cases hu with
    | action => exact .inr ⟨_, rfl⟩
    | sequence | choice | call => trivial
  | climb => exact .inr ⟨_, rfl⟩
  | pop | leave => exact htail hs
  | _ => trivial

theorem Asks.le (h : Asks g s t) : s.2 ≤ t.2 :=
  h.preserves (P := fun p => s.2 ≤ p) (fun hf hle => Context.le_trans hle hf.le)
    (Context.le_refl s.2)

theorem Grammar.card_searches_le :
    (g.searches stack).card ≤ 2 * g.elements.size + stack.length + 1 := by
  refine (List.toFinset_card_le _).trans (Nat.le_of_eq ?_)
  simp [elementIds]
  omega

theorem Finds.mem_searches (h : Finds g i o l p) (hi : i.Within stack) (hlevel : i.levels = 1) :
    i ∈ g.searches stack := by
  have hids : ∀ {id}, g.Issued id → id ∈ g.elementIds := fun h =>
    Grammar.mem_elementIds.mpr h.index_lt
  rw [Grammar.searches, List.mem_toFinset, List.mem_append, List.mem_append]
  cases i with
  | openings id => exact .inl (.inl (List.mem_map.mpr ⟨id, hids h.issued, rfl⟩))
  | continuations calls =>
    obtain hsuffix | ⟨id, rfl⟩ := hi
    · exact .inr (List.mem_map.mpr ⟨calls, (List.mem_tails calls stack).mpr hsuffix, rfl⟩)
    · obtain ⟨member, group?, hga⟩ := h.exists_around
      have hid := (Grammar.issued_of_groupAroundWithin hga).1
      exact .inl (.inr (List.mem_map.mpr ⟨id, hids hid, rfl⟩))
  | _ => cases hlevel

/-- An inquiry that a search with the stack can come to, in a context that it can come to. -/
structure Met (g : Grammar) (stack : List ElementId) (s : Inquiry × Context) : Prop where
  within : s.1.Within stack
  faithful : s.2.Faithful g
  inside : s.2.Inside g

namespace Met

theorem asks (hs : Met g stack s) (h : Asks g s t) : Met g stack t where
  within := h.within hs.within
  faithful := h.preserves Finds.faithful hs.faithful
  inside := h.preserves Finds.inside hs.inside

theorem eq_of_card_le (hs : Met g stack s) (h : Asks g s t)
    (hcard : (t.2.marked g).card ≤ (s.2.marked g).card) : s.2 = t.2 :=
  hs.faithful.eq_of_card_le (hs.asks h).faithful hs.inside (hs.asks h).inside h.le hcard

end Met

/-- What is in progress, each inquiry with the number of marks in its context: contexts grow, and an
inquiry with as many marks as there are now was made in the context that there is now. -/
structure InProgress (g : Grammar) (past : Finset (Inquiry × Nat)) (s : Inquiry × Context) :
    Prop where
  le : ∀ k ∈ past, k.2 ≤ (s.2.marked g).card
  asks : ∀ k ∈ past, k.2 = (s.2.marked g).card → TransGen (Asks g) (k.1, s.2) s

namespace InProgress

variable {past : Finset (Inquiry × Nat)}

theorem empty : InProgress g ∅ s where
  le k hk := absurd hk (Finset.notMem_empty k)
  asks k hk := absurd hk (Finset.notMem_empty k)

theorem next (hp : InProgress g past s) (hs : Met g stack s) (h : Asks g s t) :
    InProgress g past t := by
  have hcard := Finset.card_le_card (Context.marked_subset h.le (g := g))
  refine ⟨fun k hk => (hp.le k hk).trans hcard, fun k hk heq => ?_⟩
  have hle := hp.le k hk
  have hasks := hp.asks k hk (by omega)
  rw [← hs.eq_of_card_le h (by omega)]
  exact hasks.tail h

/-- An inquiry is in progress when the next one is made. -/
theorem enter (hp : InProgress g past s) (hs : Met g stack s) (h : Asks g s t) :
    InProgress g (insert (s.1, (s.2.marked g).card) past) t := by
  have ht := hp.next hs h
  constructor
  · intro k hk
    rcases Finset.mem_insert.mp hk with rfl | hk
    · exact Finset.card_le_card (Context.marked_subset h.le)
    · exact ht.le k hk
  · intro k hk heq
    rcases Finset.mem_insert.mp hk with rfl | hk
    · rw [← hs.eq_of_card_le h (Nat.le_of_eq heq.symm)]
      exact .single h
    · exact ht.asks k hk heq

/-- An inquiry that ends is not in progress when it is made. -/
theorem not_mem (hp : InProgress g past s) {depth : Nat} (h : Enough g depth s) :
    (s.1, (s.2.marked g).card) ∉ past := by
  intro hmem
  exact not_cycle_of_acc h.acc .refl (hp.asks _ hmem rfl)

end InProgress

/-- Inquiries with the number of marks in the context that they may be made in. -/
def Grammar.stages (g : Grammar) (stack : List ElementId) : Finset (Inquiry × Nat) :=
  g.searches stack ×ˢ Finset.range (g.elements.size + 1)

theorem Grammar.card_stages_le : (g.stages stack).card ≤ g.lookaheadDepth stack.length := by
  rw [stages, Finset.card_product, Finset.card_range, lookaheadDepth]
  exact Nat.mul_le_mul_right _ (g.card_searches_le.trans (by omega))

theorem Enough.mem_stages {depth : Nat} (h : Enough g depth s) (hs : Met g stack s)
    (hlevel : s.1.levels = 1) : (s.1, (s.2.marked g).card) ∈ g.stages stack := by
  obtain ⟨l, p, hfinds⟩ := h.answered
  have hcard : (s.2.marked g).card ≤ g.elements.size := by
    have hle := Finset.card_filter_le (Finset.range g.elements.size)
      fun i => (s.2.get? ⟨i⟩).isSome = true
    rwa [Finset.card_range] at hle
  refine Finset.mem_product.mpr ⟨hfinds.mem_searches hs.within hlevel, ?_⟩
  exact Finset.mem_range.mpr (Nat.lt_succ_of_le hcard)

/-- A depth suffices if it is as great as what is not in progress yet: no inquiry is made again in a
context in which it is in progress. -/
theorem Enough.of_inProgress {depth depth' : Nat} (h : Enough g depth s) (hs : Met g stack s)
    {past : Finset (Inquiry × Nat)} (hp : InProgress g past s) (hsub : past ⊆ g.stages stack)
    (hcard : (g.stages stack).card ≤ depth' + past.card) : Enough g depth' s := by
  have henough := h
  induction h generalizing depth' past with
  | @intro _ _ s ha _ hasks ih =>
    -- Only inquiries with a level of their own use up depth, and only these are counted.
    obtain hlevel | hlevel : s.1.levels = 0 ∨ s.1.levels = 1 := by
      cases s.1 <;> simp [Inquiry.levels]
    · refine .intro ha (Nat.le_of_eq (congrArg (depth' + ·) hlevel)) fun t ht => ?_
      exact ih t ht (hs.asks ht) (hp.next hs ht) hsub hcard (hasks t ht)
    · have hnew := hp.not_mem henough
      have hsub' := Finset.insert_subset (henough.mem_stages hs hlevel) hsub
      have hle := Finset.card_le_card hsub'
      rw [Finset.card_insert_of_notMem hnew] at hle
      have hbelow : depth' - 1 + s.1.levels ≤ depth' := by omega
      refine .intro ha hbelow fun t ht => ?_
      refine ih t ht (hs.asks ht) (hp.enter hs ht) hsub' ?_ (hasks t ht)
      rw [Finset.card_insert_of_notMem hnew]
      omega

/-- The depth of the queries suffices for every search that ends, in the contexts that queries
leave. -/
theorem Finds.run_lookaheadDepth (h : Finds g i o l p) (ho : o.Filled g) (hi : i.Within stack) :
    (i.query g (g.lookaheadDepth stack.length)).run o = .ok (l, p) := by
  obtain ⟨depth, henough⟩ := h.enough
  have hmet : Met g stack (i, o) := ⟨hi, ho.faithful, ho.inside⟩
  have hdepth := henough.of_inProgress hmet InProgress.empty (Finset.empty_subset _)
    Grammar.card_stages_le
  exact hdepth.run (Nat.le_refl _) h

namespace Grammar

/-- The query for the openings of an element has the answer that the search has within any depth. -/
theorem openings_eq_ok_iff (ho : o.Filled g) :
    (g.openings (some id)).run o = .ok (l, p) ↔
      ∃ depth, (g.openingsWithin depth id).run o = .ok (l, p) := by
  constructor
  · exact fun h => ⟨_, h⟩
  · intro h
    obtain ⟨depth, hrun⟩ := h
    have hwithin : Inquiry.Within [] (.openings id) := trivial
    have hanswer := ((Finds.of_run depth).1 hrun).run_lookaheadDepth ho hwithin
    rwa [Inquiry.query, List.length_nil] at hanswer

/-- The query for the continuations of a stack has the answer that the search has within any depth. -/
theorem continuations_eq_ok_iff (ho : o.Filled g) :
    (g.continuations stack).run o = .ok (l, p) ↔
      ∃ depth, (g.continuationsWithin depth stack).run o = .ok (l, p) := by
  constructor
  · exact fun h => ⟨_, h⟩
  · intro h
    obtain ⟨depth, hrun⟩ := h
    have hanswer := ((Finds.of_run depth).2 hrun).run_lookaheadDepth ho (.inl List.suffix_rfl)
    rwa [Inquiry.query] at hanswer

/-- The query is endless only if the search is, at every depth. -/
theorem Forest.openings_eq_endless_iff (hg : g.Forest) (hid : g.Issued id) (ho : o.Filled g) :
    (g.openings (some id)).run o = .error .endless ↔
      ∀ depth, (g.openingsWithin depth id).run o = .error .endless := by
  constructor
  · intro h depth
    refine ((hg.staysInbounds depth).openings id hid o).eq_endless fun answer hrun => ?_
    cases ((openings_eq_ok_iff ho).mpr ⟨depth, hrun⟩).symm.trans h
  · exact fun h => h (g.lookaheadDepth 0)

theorem Forest.continuations_eq_endless_iff (hg : g.Forest) (hstack : g.AllIssued stack)
    (ho : o.Filled g) : (g.continuations stack).run o = .error .endless ↔
      ∀ depth, (g.continuationsWithin depth stack).run o = .error .endless := by
  constructor
  · intro h depth
    refine ((hg.staysInbounds depth).continuations stack hstack o).eq_endless fun answer hrun => ?_
    cases ((continuations_eq_ok_iff ho).mpr ⟨depth, hrun⟩).symm.trans h
  · exact fun h => h (g.lookaheadDepth stack.length)

end Grammar

end GrammarLookahead
