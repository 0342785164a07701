import GrammarLookahead.Proofs.LeftRecursion.Trace

namespace GrammarLookahead

variable {g : Grammar}

theorem Visitable.mem_enter_of_body {path : List ElementId} {id body : ElementId} {s : Exploration}
    (h : Visitable g path id s) (hb : body ∈ path ∨ Task.openings id = .openings body) :
    body ∈ id :: path ∧ body ∈ (s.enter id).visited := by
  rcases hb with hpath | heq
  · exact ⟨List.mem_cons_of_mem id hpath,
      Exploration.mem_enter.mpr (.inr (h.coherent.visited body hpath))⟩
  · cases heq
    exact ⟨List.mem_cons_self, Exploration.mem_enter.mpr (.inl rfl)⟩

namespace Explores

/-- A body that has been visited is not explored again. -/
theorem eq_none_of_visited {depth path s a t} {body : ElementId}
    (h : Explores g depth path (.branches [body]) s a t) (hv : body ∈ s.visited) :
    a = none := by
  cases h with
  | branchesCons h hrest =>
    cases hrest
    cases h with
    | revisit => rfl
    | leaf _ hn | closed _ hn | sequence _ hn | choice _ hn | action _ hn | known _ hn
    | called _ hn => exact absurd hv hn

/-- If a rule whose body is being explored gets a verdict on the way, then this says that the rule is
cyclic, and what is explored gives up: a call has come to the body again, and from there all gives up,
up to the body where it began. -/
theorem failed (hg : g.Forest) {depth path task s a t} (h : Explores g depth path task s a t)
    {rule : RuleId} {body : ElementId} (hb : g.IsBody rule body)
    (hpath : body ∈ path ∨ task = .openings body) (hs : rule ∉ s.memo) (ht : rule ∈ t.memo) :
    a = none ∧ t.memo[rule]? = some .cyclic := by
  induction h with
  | revisit | leaf | closed | known | sequenceNil | branchesNil | again | outermost =>
    exact absurd ht hs
  | sequence hv _ _ _ ih | choice hv _ _ _ ih | action hv _ _ _ ih =>
    exact ih (.inl (hv.mem_enter_of_body hpath).1) hs ht
  | @called _ path id s called body? a t hv hn hp hm h ih =>
    obtain ⟨hmem, hvisited⟩ := hv.mem_enter_of_body hpath
    by_cases hwritten : rule ∈ t.memo
    · -- The verdict was there before the called rule got its own.
      obtain ⟨rfl, hcyclic⟩ := ih (.inl hmem) hs hwritten
      refine ⟨rfl, ?_⟩
      simp only [Exploration.memoize, Exploration.handOn, Std.ExtTreeMap.getElem?_insert]
      split_ifs
      · rfl
      · exact hcyclic
    · -- It is the called rule that gets the verdict, and its body is being explored already.
      have hcalled : called = rule := by
        by_contra hne
        refine hwritten ?_
        simpa [Exploration.memoize, Exploration.handOn, hne] using ht
      subst hcalled
      obtain rfl := Option.mem_def.mp (hp.isBody_iff.mp hb)
      obtain rfl := h.eq_none_of_visited hvisited
      simp [Exploration.memoize, Verdict.ofOpenings?]
  | sequenceNone _ ih | followNone _ _ _ _ _ _ ih =>
    exact ih (.inl (hpath.resolve_right (by simp))) hs ht
  | sequenceStop _ _ ih | settle _ _ _ _ _ _ _ ih =>
    exact absurd (ih (.inl (hpath.resolve_right (by simp))) hs ht).1 (by simp)
  | @sequenceStep _ _ _ _ _ _ t _ _ _ _ _ ih ih'
  | @climb _ _ _ _ _ _ _ _ _ t _ _ _ _ _ _ _ _ _ _ ih ih' =>
    have hin := hpath.resolve_right (by simp)
    have hbefore : rule ∉ t.memo := fun hwritten => absurd (ih (.inl hin) hs hwritten).1 (by simp)
    obtain ⟨rfl, hcyclic⟩ := ih' (.inl hin) hbefore ht
    exact ⟨rfl, hcyclic⟩
  | @branchesCons _ _ _ _ _ a t _ _ _ h' ih ih' =>
    have hin := hpath.resolve_right (by simp)
    by_cases hwritten : rule ∈ t.memo
    · obtain ⟨rfl, hcyclic⟩ := ih (.inl hin) hs hwritten
      exact ⟨rfl, (h'.advance hg).memo hcyclic⟩
    · obtain ⟨rfl, hcyclic⟩ := ih' (.inl hin) hwritten ht
      exact ⟨by cases a <;> rfl, hcyclic⟩

/-- The verdict that a rule gets when its body has been explored is the one that it has by then, if it
has one. -/
theorem written (hg : g.Forest) {depth path s a t} {rule : RuleId} {body? : Option ElementId}
    (h : Explores g depth path (.branches body?.toList) s a t)
    (hb : ∀ body ∈ body?, g.IsBody rule body) (hs : rule ∉ s.memo) :
    ∀ v, t.memo[rule]? = some v → v = .ofOpenings? a := by
  intro v hv
  have ht : rule ∈ t.memo := mem_memo_iff.mpr ⟨v, hv⟩
  cases body? with
  | none =>
    cases h
    exact absurd ht hs
  | some body =>
    cases h with
    | branchesCons h hrest =>
      cases hrest
      obtain ⟨rfl, hcyclic⟩ := h.failed hg (hb body rfl) (.inr rfl) hs ht
      exact Option.some.inj (hv.symm.trans hcyclic)

end Explores

end GrammarLookahead
