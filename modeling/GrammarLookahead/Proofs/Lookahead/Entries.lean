import GrammarLookahead.Proofs.Lookahead.Opens
import GrammarLookahead.Proofs.Lookahead.Skipping
import Mathlib.Logic.Relation

namespace GrammarLookahead

open Relation

variable {g : Grammar} {i : Inquiry} {o p q : Context} {id f : ElementId} {l : List ElementId}

namespace Context

/-- The first context becomes the second where a fragment hands its cardinality on to an element.
Whatever is asked in a context is in the end a sequence of such steps. -/
def Lends (g : Grammar) (o p : Context) : Prop :=
  ∃ around child, (Query.inherit g around child).run o = .ok ((), p)

theorem eq_seen_of_effective {c : Cardinality} (h : o.effective g id = .ok c) :
    c = o.seen g id ∧ (o.Marks id ∨ g.Issued id) := by
  unfold effective at h
  cases hget : o.get? id with
  | some cardinality =>
    simp only [hget, Except.ok.injEq] at h
    simp [seen, Marks, hget, h]
  | none =>
    simp only [hget, Grammar.cardinality] at h
    obtain ⟨e, he, hc⟩ := bind_eq_ok.mp h
    rw [Grammar.element_eq_ok_iff] at he
    cases hc
    exact ⟨by simp [seen, hget, Grammar.written_of he], .inr ⟨e, he⟩⟩

/-- A step changes nothing, or makes an entry for one element that is known. -/
theorem Lends.cases (h : Lends g o p) :
    p = o ∨ ∃ id, (o.Marks id ∨ g.Issued id) ∧ p = o.insert id (o.seen g id).skippable := by
  obtain ⟨around, id, hrun⟩ := h
  unfold Query.inherit at hrun
  split_ifs at hrun
  · obtain ⟨c, q, heff, hset⟩ := run_bind_eq_ok.mp hrun
    obtain ⟨hc, rfl⟩ := run_lift_eq_ok.mp heff
    obtain ⟨rfl, hknown⟩ := eq_seen_of_effective hc
    cases hset
    exact .inr ⟨id, hknown, rfl⟩
  · cases hrun
    exact .inl rfl

theorem lends_of_issued (around : Cardinality) (h : g.Issued id) :
    Lends g o (o.handOn g around [id]) :=
  ⟨around, id, Query.run_inherit h⟩

theorem lends_handOn (around : Cardinality) (h : ∀ id ∈ l, g.Issued id) :
    ReflTransGen (Lends g) o (o.handOn g around l) := by
  induction l generalizing o with
  | nil =>
    have hsame : o.handOn g around [] = o := by simp [handOn]
    rw [hsame]
  | cons id l ih =>
    rw [handOn_cons]
    exact .head (lends_of_issued around (h id List.mem_cons_self))
      (ih fun other ho => h other (List.mem_cons_of_mem _ ho))

/-- The entries of a context are for elements of the grammar, and each is what the cardinality written
at its element becomes when it may be skipped. -/
structure Settled (g : Grammar) (o : Context) : Prop where
  faithful : o.Faithful g
  inside : o.Inside g

theorem settled_empty : Settled g ∅ :=
  ⟨faithful_empty, inside_empty⟩

theorem Settled.step (ho : o.Settled g) (h : Lends g o p) : p.Settled g ∧ o ≤ p := by
  rcases h.cases with rfl | ⟨id, hknown, rfl⟩
  · exact ⟨ho, le_refl _⟩
  · refine ⟨⟨ho.faithful.insert id, fun other hm => ?_⟩, fun other hm => marks_insert.mpr (.inr hm)⟩
    rcases marks_insert.mp hm with rfl | hm
    · exact hknown.elim (ho.inside other) id
    · exact ho.inside other hm

theorem Settled.steps (ho : o.Settled g) (h : ReflTransGen (Lends g) o p) :
    p.Settled g ∧ o ≤ p := by
  induction h with
  | refl => exact ⟨ho, le_refl o⟩
  | tail _ hstep ih =>
    obtain ⟨hq, hle⟩ := ih
    obtain ⟨hr, hle'⟩ := hq.step hstep
    exact ⟨hr, le_trans hle hle'⟩

theorem Settled.get?_mono (ho : o.Settled g) (hp : p.Settled g) (hle : o ≤ p) {c : Cardinality}
    (h : o.get? id = some c) : p.get? id = some c := by
  have hmark : p.Marks id := hle id (by simp [Marks, h])
  obtain ⟨c', hc'⟩ := Option.isSome_iff_exists.mp hmark
  rw [hc', hp.faithful id c' hc', ho.faithful id c h]

end Context

theorem Finds.lends (h : Finds g i o l p) : ReflTransGen (Context.Lends g) o p :=
  h.preserves (P := ReflTransGen (Context.Lends g) o)
    (fun hsteps hleaves => hsteps.trans (Context.lends_handOn _ fun id hid => (hleaves id hid).issued))
    .refl

theorem Comes.lends (h : Comes g i o f q) : ReflTransGen (Context.Lends g) o q :=
  h.preserves (P := ReflTransGen (Context.Lends g) o) (fun hf hsteps => hsteps.trans hf.lends) .refl

namespace Context

/-- One call on a context: a search that ends, or a fragment that hands its cardinality on. -/
inductive Call (g : Grammar) : Context → Context → Prop
  | openings {depth id o found p} : (g.openingsWithin depth id).run o = .ok (found, p) →
      Call g o p
  | continuations {depth stack o found p} :
      (g.continuationsWithin depth stack).run o = .ok (found, p) → Call g o p
  | inherit {around child o p} : (Query.inherit g around child).run o = .ok ((), p) → Call g o p

theorem Call.lends (h : Call g o p) : ReflTransGen (Lends g) o p := by
  cases h with
  | openings hrun => exact ((Finds.of_run _).1 hrun).lends
  | continuations hrun => exact ((Finds.of_run _).2 hrun).lends
  | inherit hrun => exact .single ⟨_, _, hrun⟩

theorem Settled.calls (ho : o.Settled g) (h : ReflTransGen (Call g) o p) : p.Settled g ∧ o ≤ p :=
  ho.steps (h.lift' id fun _ _ => Call.lends)

/-- In the middle of the inquiry, made in the first context, a search is begun in the second. -/
def Amid (g : Grammar) (i : Inquiry) (o q : Context) : Prop :=
  ∃ s t, Comes g i o s.1 s.2 ∧ ReflTransGen g.Opens s t ∧ t.2 = q

theorem Amid.lends (h : Amid g i o q) : ReflTransGen (Lends g) o q := by
  obtain ⟨s, t, hs, hst, rfl⟩ := h
  induction hst with
  | refl => exact hs.lends
  | tail _ hopens ih =>
    obtain ⟨j, -, ht⟩ := hopens
    exact ih.trans ht.lends

/-- The entries of the context are those that the grammar decides: `*` for a repeatable element, else
`?`. So an element may be repeated if and only if it is written so, and it may be skipped if it is
written so. -/
structure Decided (g : Grammar) (o : Context) : Prop where
  entry : ∀ id c, o.get? id = some c → ∃ e, g.element? id = some e ∧
    c = if e.cardinality.isRepeatable then .zeroOrMore else .optional
  effective : ∀ id e, g.element? id = some e → ∃ c, o.effective g id = .ok c ∧
    c.isRepeatable = e.cardinality.isRepeatable ∧
    (e.cardinality.isOptional = true → c.isOptional = true)

theorem Settled.decided (ho : o.Settled g) : o.Decided g where
  entry id c hc := by
    obtain ⟨e, he⟩ := ho.inside id (by simp [Marks, hc])
    refine ⟨e, he, ?_⟩
    rw [ho.faithful id c hc, Grammar.written_of he, Cardinality.skippable]
  effective id e he := by
    refine ⟨o.seen g id, effective_eq ⟨e, he⟩, ?_, fun hopt => ?_⟩
    · rw [ho.faithful.isRepeatable_seen, Grammar.written_of he]
    · exact ho.faithful.isOptional_of_written (by rw [Grammar.written_of he, hopt])

end Context

/-- After any sequence of calls, and in the middle of the next one, the entries of the context are those
that the grammar decides. No call to come removes or changes an entry, also not on its way. -/
theorem entries_of_calls {g : Grammar} {o p : Context} (ho : ReflTransGen (Context.Call g) ∅ o)
    (hp : ReflTransGen (Context.Call g) o p) :
    o.Decided g ∧ (∀ id c, o.get? id = some c → p.get? id = some c) ∧
    ∀ i q, Context.Amid g i o q →
      q.Decided g ∧ ∀ id c, o.get? id = some c → q.get? id = some c := by
  obtain ⟨hs, -⟩ := Context.settled_empty.calls ho
  obtain ⟨hs', hle⟩ := hs.calls hp
  refine ⟨hs.decided, fun id c => hs.get?_mono hs' hle, fun i q hq => ?_⟩
  obtain ⟨hs'', hle'⟩ := hs.steps hq.lends
  exact ⟨hs''.decided, fun id c => hs.get?_mono hs'' hle'⟩

/-- The rules `A: ('a'+? B)*` and `B: 'b'`, with the first keyword in a group of its own. -/
def nested : Grammar where
  name := "G"
  elements := #[⟨.keyword "a", .oneOrMore, some ⟨1⟩⟩, ⟨.group [⟨0⟩], .optional, some ⟨3⟩⟩,
    ⟨.ruleCall "B" (some ⟨1⟩) [], .once, some ⟨3⟩⟩, ⟨.group [⟨1⟩, ⟨2⟩], .zeroOrMore, none⟩,
    ⟨.keyword "b", .once, none⟩]
  rules := #[.parser { name := "A", body := some ⟨3⟩ }, .parser { name := "B", body := some ⟨4⟩ }]

/-- The search for the openings of `A` begins one for the call of `B` where `'a'+` has `*` already. -/
theorem amid_nested :
    Context.Amid nested (.openings ⟨3⟩) ∅ ((∅ : Context).insert ⟨0⟩ .zeroOrMore) := by
  have hrun : (nested.openingsWithin 9 ⟨1⟩).run ∅ =
      .ok ([⟨0⟩], (∅ : Context).insert ⟨0⟩ .zeroOrMore) := by decide +kernel
  have hplays : nested.Plays ⟨3⟩ (.sequence [⟨1⟩, ⟨2⟩]) := ⟨_, rfl, rfl⟩
  have hcomes : Comes nested (.sequence [⟨1⟩, ⟨2⟩]) ∅ ⟨2⟩ ((∅ : Context).insert ⟨0⟩ .zeroOrMore) :=
    .sequenceTail ((Finds.of_run 9).1 hrun) rfl .sequenceHead
  exact ⟨(⟨3⟩, ∅), (⟨2⟩, _), .openings, .single ⟨_, .sequence hplays, hcomes⟩, rfl⟩

/-- The search leaves `*` for `'a'+`, which may then be skipped, and `?` for `'b'`. It is still so after
the element that calls `B` has got an entry too. -/
theorem entries_of_calls_nested : ∃ o p q,
    Context.Amid nested (.openings ⟨3⟩) ∅ q ∧ q ≠ ∅ ∧ q.Decided nested ∧
      (nested.openingsWithin 9 ⟨3⟩).run ∅ = .ok ([⟨0⟩, ⟨4⟩], o) ∧
      (Query.inherit nested .zeroOrMore ⟨2⟩).run o = .ok ((), p) ∧ o ≠ p ∧ o.Decided nested ∧
      p.get? ⟨0⟩ = some .zeroOrMore ∧ p.get? ⟨4⟩ = some .optional := by
  let o := ((∅ : Context).insert ⟨0⟩ .zeroOrMore).insert ⟨4⟩ .optional
  have hrun : (nested.openingsWithin 9 ⟨3⟩).run ∅ = .ok ([⟨0⟩, ⟨4⟩], o) := by decide +kernel
  have hrun' : (Query.inherit nested .zeroOrMore ⟨2⟩).run o =
      .ok ((), o.insert ⟨2⟩ .optional) := by decide +kernel
  obtain ⟨-, -, hamid⟩ := entries_of_calls (g := nested) .refl .refl
  obtain ⟨hdecided, hkept, -⟩ := entries_of_calls (.single (.openings hrun)) (.single (.inherit hrun'))
  exact ⟨o, o.insert ⟨2⟩ .optional, _, amid_nested, by decide +kernel, (hamid _ _ amid_nested).1, hrun,
    hrun', by decide +kernel, hdecided, hkept _ _ rfl, hkept _ _ rfl⟩

end GrammarLookahead
