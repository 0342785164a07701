import GrammarLookahead.Proofs.LeftRecursion.Run
import GrammarLookahead.Proofs.Role

namespace GrammarLookahead

/-- The path to an exploration fits the state of it. A visited body that is not on the path belongs
to a rule with a verdict. -/
structure Coherent (g : Grammar) (path : List ElementId) (s : Exploration) : Prop where
  nodup : path.Nodup
  inRule : ∀ id ∈ path, g.InRule id
  outer : ∀ {outer inner}, g.Holds outer inner → inner ∈ path → outer ∈ path
  visited : ∀ id ∈ path, id ∈ s.visited
  closed : ∀ {outer inner}, g.Holds outer inner → inner ∈ s.visited → outer ∈ s.visited
  entered : ∀ {rule body}, g.IsBody rule body → body ∈ s.visited → rule ∈ s.memo ∨ body ∈ path

/-- An exploration may come to the element: it stands directly inside the end of the path or is a
body of a rule without a verdict, nothing behind it has been visited, and nor has the element unless
its exploration is in progress. -/
structure Visitable (g : Grammar) (path : List ElementId) (id : ElementId) (s : Exploration) :
    Prop where
  coherent : Coherent g path s
  inRule : g.InRule id
  outer : ∀ {outer}, g.Holds outer id → outer ∈ path
  progress : id ∈ s.visited → id ∈ path
  ahead : ∀ {behind}, g.Later id behind → behind ∉ s.visited
  uncalled : ∀ {rule}, g.IsBody rule id → rule ∉ s.memo

/-- Lookahead may start behind the element: it is on the path, and nothing behind it has been
visited. -/
structure Positioned (g : Grammar) (path : List ElementId) (id : ElementId) (s : Exploration) :
    Prop where
  coherent : Coherent g path s
  mem : id ∈ path
  ahead : ∀ {behind}, g.Later id behind → behind ∉ s.visited

/-- What an exploration can be asked for. -/
inductive Task
  /-- The openings of an element. -/
  | openings (id : ElementId)
  /-- The openings of elements in a row, up to the first one that may not be skipped. -/
  | sequence (ids : List ElementId)
  /-- The openings of all of the elements. -/
  | branches (ids : List ElementId)
  /-- The continuations of an element. -/
  | continuations (id : ElementId)

/-- The exploration for a task, in a state of the search with a path to it, comes to the answer and
ends in the second state; it recurses no deeper than the bound. On the path are the elements whose
exploration is in progress, innermost first. -/
inductive Explores (g : Grammar) : Nat → List ElementId → Task → Exploration →
    Option (List ElementId) → Exploration → Prop
  | revisit {depth path id s} : id ∈ path → id ∈ s.visited →
      Explores g (depth + 1) path (.openings id) s none s
  | leaf {depth path id s} : Visitable g path id s → id ∉ s.visited → g.Plays id .leaf →
      Explores g (depth + 1) path (.openings id) s (some [id]) (s.enter id)
  | closed {depth path id s} : Visitable g path id s → id ∉ s.visited → g.Plays id .closed →
      Explores g (depth + 1) path (.openings id) s (some []) (s.enter id)
  | sequence {depth path id s members a t} : Visitable g path id s → id ∉ s.visited →
      g.Plays id (.sequence members) →
      Explores g depth (id :: path) (.sequence members) (s.enter id) a t →
      Explores g (depth + 1) path (.openings id) s a (t.handOn g (g.written id) a)
  | choice {depth path id s ids a t} : Visitable g path id s → id ∉ s.visited →
      g.Plays id (.choice ids) →
      Explores g depth (id :: path) (.branches ids) (s.enter id) a t →
      Explores g (depth + 1) path (.openings id) s a (t.handOn g (g.written id) a)
  | action {depth path id s a t} : Visitable g path id s → id ∉ s.visited → g.Plays id .action →
      Explores g depth (id :: path) (.continuations id) (s.enter id) a t →
      Explores g (depth + 1) path (.openings id) s a
        (((s.enter id).restore t).handOn g (g.written id) a)
  | known {depth path id s rule body? v} : Visitable g path id s → id ∉ s.visited →
      g.Plays id (.call rule body?) → s.memo[rule]? = some v →
      Explores g (depth + 1) path (.openings id) s v.openings? (s.enter id)
  | called {depth path id s rule body? a t} : Visitable g path id s → id ∉ s.visited →
      g.Plays id (.call rule body?) → rule ∉ s.memo →
      Explores g depth (id :: path) (.branches body?.toList) (s.enter id) a t →
      Explores g (depth + 1) path (.openings id) s a
        ((t.handOn g (g.written id) a).memoize rule a)
  | sequenceNil {depth path s} : Explores g depth path (.sequence []) s (some []) s
  | sequenceNone {depth path id rest s t} : Explores g depth path (.openings id) s none t →
      Explores g depth path (.sequence (id :: rest)) s none t
  | sequenceStop {depth path id rest s found t} :
      Explores g depth path (.openings id) s (some found) t →
      (t.context.seen g id).isOptional = false →
      Explores g depth path (.sequence (id :: rest)) s (some found) t
  | sequenceStep {depth path id rest s found t b u} :
      Explores g depth path (.openings id) s (some found) t →
      (t.context.seen g id).isOptional = true →
      Explores g depth path (.sequence rest) t b u →
      Explores g depth path (.sequence (id :: rest)) s (b.map (found ++ ·)) u
  | branchesNil {depth path s} : Explores g depth path (.branches []) s (some []) s
  | branchesCons {depth path id rest s a t b u} :
      Explores g depth path (.openings id) s a t →
      Explores g depth path (.branches rest) t b u →
      Explores g depth path (.branches (id :: rest)) s
        (a.bind fun found => b.map (found ++ ·)) u
  | again {depth path id s member group?} : Positioned g path id s →
      g.NearestGroup id member group? →
      ((s.context.seen g id).isRepeatable = true ∨
        (s.context.seen g member).isRepeatable = true) →
      Explores g (depth + 2) path (.continuations id) s none s
  | outermost {depth path id s member} : Positioned g path id s → g.NearestGroup id member none →
      (s.context.seen g id).isRepeatable = false →
      (s.context.seen g member).isRepeatable = false →
      Explores g (depth + 2) path (.continuations id) s (some []) s
  | followNone {depth path id s member group before after t} : Positioned g path id s →
      g.NearestGroup id member (some group) →
      (s.context.seen g id).isRepeatable = false →
      (s.context.seen g member).isRepeatable = false →
      g.Plays group (.sequence (before ++ member :: after)) →
      Explores g (depth + 1) path (.sequence after) s none t →
      Explores g (depth + 2) path (.continuations id) s none t
  | settle {depth path id s member group before after found t} : Positioned g path id s →
      g.NearestGroup id member (some group) →
      (s.context.seen g id).isRepeatable = false →
      (s.context.seen g member).isRepeatable = false →
      g.Plays group (.sequence (before ++ member :: after)) →
      Explores g (depth + 1) path (.sequence after) s (some found) t →
      (found.all fun id => (t.context.seen g id).isOptional) = false →
      Explores g (depth + 2) path (.continuations id) s (some found) t
  | climb {depth path id s member group before after found t b u} : Positioned g path id s →
      g.NearestGroup id member (some group) →
      (s.context.seen g id).isRepeatable = false →
      (s.context.seen g member).isRepeatable = false →
      g.Plays group (.sequence (before ++ member :: after)) →
      Explores g (depth + 1) path (.sequence after) s (some found) t →
      (found.all fun id => (t.context.seen g id).isOptional) = true →
      Explores g (depth + 1) path (.continuations group) t b u →
      Explores g (depth + 2) path (.continuations id) s (b.map (found ++ ·)) u

/-- The elements that an exploration sets out from. -/
def Task.Targets (g : Grammar) : Task → ElementId → Prop
  | .openings id, target => target = id
  | .sequence ids, target => target ∈ ids
  | .branches ids, target => target ∈ ids
  | .continuations id, target => g.Later id target

/-- An exploration that set out from the targets has led from one state to another. What is visited
then and was not before lies inside a target, or inside a body whose rule has a verdict by now; a
body is entered only while its rule has none. -/
structure Advance (g : Grammar) (targets : ElementId → Prop) (s t : Exploration) : Prop where
  visited : ∀ id ∈ s.visited, id ∈ t.visited
  memo : ∀ {rule : RuleId} {v}, s.memo[rule]? = some v → t.memo[rule]? = some v
  reached : ∀ id ∈ t.visited, id ∈ s.visited ∨
    (∃ target, targets target ∧ target ∉ s.visited ∧ g.Encloses target id) ∨
    ∃ rule body, g.IsBody rule body ∧ body ∉ s.visited ∧ g.Encloses body id ∧ rule ∈ t.memo
  entered : ∀ {rule body}, g.IsBody rule body → body ∈ t.visited →
    body ∈ s.visited ∨ targets body ∨ rule ∈ t.memo
  uncalled : ∀ {rule body}, g.IsBody rule body → body ∈ t.visited →
    body ∈ s.visited ∨ rule ∉ s.memo
  closed : (∀ {outer inner}, g.Holds outer inner → inner ∈ s.visited → outer ∈ s.visited) →
    ∀ {outer inner}, g.Holds outer inner → inner ∈ t.visited → outer ∈ t.visited

namespace Exploration

variable {s : Exploration} {id other : ElementId}

theorem mem_enter : other ∈ (s.enter id).visited ↔ other = id ∨ other ∈ s.visited := by
  simp only [enter, Std.ExtTreeSet.mem_insert, Std.LawfulEqOrd.compare_eq_iff_eq]
  tauto

end Exploration

theorem mem_memo_iff {memo : Verdicts} {rule : RuleId} :
    rule ∈ memo ↔ ∃ v, memo[rule]? = some v := by
  rw [← Std.ExtTreeMap.isSome_getElem?_iff_mem, Option.isSome_iff_exists]

namespace Advance

variable {g : Grammar} {s t u : Exploration} {T T' : ElementId → Prop}

theorem mem_memo (h : Advance g T s t) {rule : RuleId} (hm : rule ∈ s.memo) : rule ∈ t.memo := by
  obtain ⟨v, hv⟩ := mem_memo_iff.mp hm
  exact mem_memo_iff.mpr ⟨v, h.memo hv⟩

theorem refl (T : ElementId → Prop) (s : Exploration) : Advance g T s s where
  visited _ h := h
  memo h := h
  reached _ h := .inl h
  entered _ h := .inl h
  uncalled _ h := .inl h
  closed h := h

theorem trans (h : Advance g T s t) (h' : Advance g T t u) : Advance g T s u where
  visited id hid := h'.visited id (h.visited id hid)
  memo hv := h'.memo (h.memo hv)
  reached id hid := by
    rcases h'.reached id hid with ht | ⟨target, hT, hn, he⟩ | ⟨rule, body, hb, hn, he, hm⟩
    · rcases h.reached id ht with hs | hT | ⟨rule, body, hb, hn, he, hm⟩
      · exact .inl hs
      · exact .inr (.inl hT)
      · exact .inr (.inr ⟨rule, body, hb, hn, he, h'.mem_memo hm⟩)
    · exact .inr (.inl ⟨target, hT, fun hs => hn (h.visited target hs), he⟩)
    · exact .inr (.inr ⟨rule, body, hb, fun hs => hn (h.visited body hs), he, hm⟩)
  entered hb hu := by
    rcases h'.entered hb hu with ht | hT | hm
    · rcases h.entered hb ht with hs | hT | hm
      · exact .inl hs
      · exact .inr (.inl hT)
      · exact .inr (.inr (h'.mem_memo hm))
    · exact .inr (.inl hT)
    · exact .inr (.inr hm)
  uncalled hb hu := by
    rcases h'.uncalled hb hu with ht | hm
    · exact h.uncalled hb ht
    · exact .inr fun hs => hm (h.mem_memo hs)
  closed hs := h'.closed (h.closed hs)

theorem within (h : Advance g T s t)
    (hout : ∀ target, T target → target ∉ s.visited →
      ∃ outer, T' outer ∧ outer ∉ s.visited ∧ g.Encloses outer target)
    (hbody : ∀ {rule body}, g.IsBody rule body → T body → T' body) : Advance g T' s t where
  visited := h.visited
  memo := h.memo
  reached id hid := by
    rcases h.reached id hid with hs | ⟨target, hT, hn, he⟩ | hb
    · exact .inl hs
    · obtain ⟨outer, hT', hn', he'⟩ := hout target hT hn
      exact .inr (.inl ⟨outer, hT', hn', he'.trans he⟩)
    · exact .inr (.inr hb)
  entered hb ht := by
    rcases h.entered hb ht with hs | hT | hm
    · exact .inl hs
    · exact .inr (.inl (hbody hb hT))
    · exact .inr (.inr hm)
  uncalled := h.uncalled
  closed := h.closed

theorem mono (h : Advance g T s t) (hT : ∀ target, T target → T' target) : Advance g T' s t :=
  h.within (fun target ht hn => ⟨target, hT target ht, hn, .refl⟩) fun _ ht => hT _ ht

theorem enter {id : ElementId} (hn : id ∉ s.visited)
    (hout : ∀ {outer}, g.Holds outer id → outer ∈ s.visited)
    (hcall : ∀ {rule}, g.IsBody rule id → rule ∉ s.memo) :
    Advance g (· = id) s (s.enter id) where
  visited other ho := Exploration.mem_enter.mpr (.inr ho)
  memo hv := hv
  reached other ho := by
    rcases Exploration.mem_enter.mp ho with rfl | hs
    · exact .inr (.inl ⟨other, rfl, hn, .refl⟩)
    · exact .inl hs
  entered _ hb := by
    rcases Exploration.mem_enter.mp hb with rfl | hs
    · exact .inr (.inl rfl)
    · exact .inl hs
  uncalled hb hv := by
    rcases Exploration.mem_enter.mp hv with rfl | hs
    · exact .inr (hcall hb)
    · exact .inl hs
  closed hs outer inner ho hi := by
    apply Exploration.mem_enter.mpr
    rcases Exploration.mem_enter.mp hi with rfl | hi
    · exact .inr (hout ho)
    · exact .inr (hs ho hi)

theorem handOn (h : Advance g T s t) (around : Cardinality) (a : Option (List ElementId)) :
    Advance g T s (t.handOn g around a) where
  visited := h.visited
  memo := h.memo
  reached := h.reached
  entered := h.entered
  uncalled := h.uncalled
  closed := h.closed

/-- Visits that are forgotten leave only what has become of the memo. -/
theorem restore (h : Advance g T s t) (h' : Advance g T' t u) : Advance g T s (t.restore u) where
  visited := h.visited
  memo hv := h'.memo (h.memo hv)
  reached id hid := by
    rcases h.reached id hid with hs | hT | ⟨rule, body, hb, hn, he, hm⟩
    · exact .inl hs
    · exact .inr (.inl hT)
    · exact .inr (.inr ⟨rule, body, hb, hn, he, h'.mem_memo hm⟩)
  entered hb ht := by
    rcases h.entered hb ht with hs | hT | hm
    · exact .inl hs
    · exact .inr (.inl hT)
    · exact .inr (.inr (h'.mem_memo hm))
  uncalled := h.uncalled
  closed := h.closed

/-- A verdict is kept on a rule that had none; a body of the rule is no target any more. -/
theorem memoize (h : Advance g T s t) {rule : RuleId} (hn : rule ∉ s.memo)
    {a : Option (List ElementId)}
    (hT : ∀ target, T target → target ∉ s.visited → T' target ∨ g.IsBody rule target)
    (hbody : ∀ {rule' body}, g.IsBody rule' body → T body → T' body ∨ rule' = rule) :
    Advance g T' s (t.memoize rule a) where
  visited := h.visited
  memo {rule' v} hv := by
    have hne : rule' ≠ rule := by
      intro heq
      subst heq
      exact hn (mem_memo_iff.mpr ⟨v, hv⟩)
    simp only [Exploration.memoize, Std.ExtTreeMap.getElem?_insert,
      Std.LawfulEqOrd.compare_eq_iff_eq, hne.symm, if_false]
    exact h.memo hv
  reached id hid := by
    rcases h.reached id hid with hs | ⟨target, ht, hnt, he⟩ | ⟨rule', body, hb, hnb, he, hm⟩
    · exact .inl hs
    · rcases hT target ht hnt with hT' | hb
      · exact .inr (.inl ⟨target, hT', hnt, he⟩)
      · exact .inr (.inr ⟨rule, target, hb, hnt, he, by simp [Exploration.memoize]⟩)
    · exact .inr (.inr ⟨rule', body, hb, hnb, he, by simp [Exploration.memoize, hm]⟩)
  entered hb ht := by
    rcases h.entered hb ht with hs | hTb | hm
    · exact .inl hs
    · rcases hbody hb hTb with hT' | rfl
      · exact .inr (.inl hT')
      · exact .inr (.inr (by simp [Exploration.memoize]))
    · exact .inr (.inr (by simp [Exploration.memoize, hm]))
  uncalled := h.uncalled
  closed := h.closed

end Advance

theorem Visitable.advance {g : Grammar} {path : List ElementId} {id : ElementId} {s : Exploration}
    (h : Visitable g path id s) (hn : id ∉ s.visited) : Advance g (· = id) s (s.enter id) :=
  .enter hn (fun ho => h.coherent.visited _ (h.outer ho)) h.uncalled

namespace Grammar

variable {g : Grammar} {id member group : ElementId} {before after : List ElementId}

theorem NearestGroup.later_after (h : g.NearestGroup id member (some group))
    (hp : g.Plays group (.sequence (before ++ member :: after))) {behind : ElementId}
    (hb : behind ∈ after) : g.Later id behind := by
  have hrow := (List.pairwise_append.mp hp.pairwise_sequence).2.1
  exact ⟨member, h.encloses, List.rel_of_pairwise_cons hrow hb⟩

theorem NearestGroup.encloses_group (h : g.NearestGroup id member (some group))
    (hp : g.Plays group (.sequence (before ++ member :: after))) : g.Encloses group id :=
  .head (hp.holds_sequence (by simp)) h.encloses

end Grammar

namespace Explores

variable {g : Grammar}

/-- What an exploration changes. -/
theorem advance (hg : g.Forest) {depth path task s a t} (h : Explores g depth path task s a t) :
    Advance g (task.Targets g) s t := by
  have hinner : ∀ {ids : List ElementId} {id : ElementId} {s t : Exploration}, id ∉ s.visited →
      (∀ inner ∈ ids, g.Holds id inner) → Advance g (· = id) s (s.enter id) →
      Advance g (· ∈ ids) (s.enter id) t → Advance g (· = id) s t := by
    intro ids id s t hn hids he h
    have hwhole : Advance g (fun target => target = id ∨ target ∈ ids) s t :=
      (he.mono fun _ h => .inl h).trans (h.mono fun _ h => .inr h)
    refine hwhole.within ?_ ?_
    · intro target hcases hnt
      rcases hcases with rfl | ht
      · exact ⟨target, rfl, hnt, .refl⟩
      · exact ⟨id, rfl, hn, .single (hids target ht)⟩
    · intro rule body hb hcases
      rcases hcases with rfl | ht
      · rfl
      · exact absurd (hids body ht) (hg.not_holds_body hb)
  induction h with
  | revisit => exact .refl _ _
  | leaf hv hn _ => exact hv.advance hn
  | closed hv hn _ => exact hv.advance hn
  | sequence hv hn hp _ ih => exact (hinner hn (fun _ => hp.holds_sequence) (hv.advance hn) ih).handOn _ _
  | choice hv hn hp _ ih => exact (hinner hn (fun _ => hp.holds_choice) (hv.advance hn) ih).handOn _ _
  | action hv hn _ _ ih => exact ((hv.advance hn).restore ih).handOn _ _
  | known hv hn _ _ => exact hv.advance hn
  | @called _ _ id s rule body? a t hv hn hp hm _ ih =>
    have hbody : ∀ body ∈ body?.toList, g.IsBody rule body := fun body hb =>
      hp.isBody_iff.mpr (Option.mem_toList.mp hb)
    have hwhole : Advance g (fun target => target = id ∨ target ∈ body?.toList) s t :=
      ((hv.advance hn).mono fun _ h => .inl h).trans (ih.mono fun _ h => .inr h)
    refine (hwhole.handOn _ _).memoize hm ?_ ?_
    · intro target hcases _
      rcases hcases with rfl | ht
      · exact .inl rfl
      · exact .inr (hbody target ht)
    · intro rule' body hb hcases
      rcases hcases with rfl | ht
      · exact .inl rfl
      · exact .inr (hg.owner hb (hbody body ht))
  | sequenceNil => exact .refl _ _
  | sequenceNone _ ih => exact ih.mono fun _ h => h ▸ List.mem_cons_self
  | sequenceStop _ _ ih => exact ih.mono fun _ h => h ▸ List.mem_cons_self
  | sequenceStep _ _ _ ih ih' =>
    exact (ih.mono fun _ h => h ▸ List.mem_cons_self).trans
      (ih'.mono fun _ h => List.mem_cons_of_mem _ h)
  | branchesNil => exact .refl _ _
  | branchesCons _ _ ih ih' =>
    exact (ih.mono fun _ h => h ▸ List.mem_cons_self).trans
      (ih'.mono fun _ h => List.mem_cons_of_mem _ h)
  | again => exact .refl _ _
  | outermost => exact .refl _ _
  | followNone _ hm _ _ hp _ ih => exact ih.mono fun _ h => hm.later_after hp h
  | settle _ hm _ _ hp _ _ ih => exact ih.mono fun _ h => hm.later_after hp h
  | climb _ hm _ _ hp _ _ _ ih ih' =>
    exact (ih.mono fun _ h => hm.later_after hp h).trans
      (ih'.mono fun _ h => Grammar.Forest.later_outer h (hm.encloses_group hp))

/-- What holds of the memo and is kept where a called rule gets its verdict holds in the end. -/
theorem memo_preserves {P : Verdicts → Prop} {depth path task s a t}
    (h : Explores g depth path task s a t)
    (hstep : ∀ {depth path id rule body? s a t}, g.Plays id (.call rule body?) →
      Explores g depth path (.branches body?.toList) s a t → P t.memo →
      P (t.memo.insert rule (.ofOpenings? a)))
    (hs : P s.memo) : P t.memo := by
  induction h with
  | revisit => exact hs
  | leaf => exact hs
  | closed => exact hs
  | sequence _ _ _ _ ih => exact ih hs
  | choice _ _ _ _ ih => exact ih hs
  | action _ _ _ _ ih => exact ih hs
  | known => exact hs
  | @called _ _ _ _ _ _ _ t _ _ hp _ h ih => exact hstep (t := t) hp h (ih hs)
  | sequenceNil => exact hs
  | sequenceNone _ ih => exact ih hs
  | sequenceStop _ _ ih => exact ih hs
  | sequenceStep _ _ _ ih ih' => exact ih' (ih hs)
  | branchesNil => exact hs
  | branchesCons _ _ ih ih' => exact ih' (ih hs)
  | again => exact hs
  | outermost => exact hs
  | followNone _ _ _ _ _ _ ih => exact ih hs
  | settle _ _ _ _ _ _ _ ih => exact ih hs
  | climb _ _ _ _ _ _ _ _ ih ih' => exact ih' (ih hs)

end Explores

end GrammarLookahead
