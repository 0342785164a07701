import GrammarLookahead.Proofs.LeftRecursion.Trace
import Mathlib.Data.List.Perm.Subperm
import Mathlib.Data.List.Range

namespace GrammarLookahead

variable {g : Grammar} {path : List ElementId} {s t : Exploration} {id : ElementId}

namespace Coherent

theorem mem_of_encloses (h : Coherent g path s) {top inner : ElementId}
    (he : g.Encloses top inner) (hi : inner ∈ path) : top ∈ path := by
  induction he with
  | refl => exact hi
  | tail _ ho ih => exact ih (h.outer ho hi)

theorem visited_of_encloses (h : Coherent g path s) {top inner : ElementId}
    (he : g.Encloses top inner) (hi : inner ∈ s.visited) : top ∈ s.visited := by
  induction he with
  | refl => exact hi
  | tail _ ho ih => exact ih (h.closed ho hi)

theorem advance (h : Coherent g path s) {T : ElementId → Prop} (ha : Advance g T s t)
    (hT : ∀ {rule body}, g.IsBody rule body → ¬ T body) : Coherent g path t where
  nodup := h.nodup
  inRule := h.inRule
  outer := h.outer
  visited id hid := ha.visited id (h.visited id hid)
  closed := ha.closed h.closed
  entered hb ht := by
    rcases ha.entered hb ht with hs | hTb | hm
    · exact (h.entered hb hs).imp_left ha.mem_memo
    · exact absurd hTb (hT hb)
    · exact .inl hm

/-- What is written directly inside a visited element, inside no target and has not been visited is
still not visited afterwards. -/
theorem unvisited (h : Coherent g path s) (hg : g.Forest) {T : ElementId → Prop}
    (ha : Advance g T s t) {outer inner : ElementId} (ho : g.Holds outer inner)
    (hov : outer ∈ s.visited) (hn : inner ∉ s.visited)
    (hT : ∀ target, T target → ¬ g.Encloses target inner) : inner ∉ t.visited := by
  intro ht
  rcases ha.reached inner ht with hs | ⟨target, htarget, -, he⟩ | ⟨rule, body, hb, hnb, he, -⟩
  · exact hn hs
  · exact hT target htarget he
  · have hne : body ≠ inner := by
      intro heq
      subst heq
      exact hg.not_holds_body hb ho
    exact hnb (h.visited_of_encloses (hg.encloses_outer he hne ho) hov)

end Coherent

namespace Visitable

theorem mem_of_holds (h : Visitable g path id s) {top outer : ElementId}
    (he : g.Encloses top id) (ho : g.Holds outer top) : outer ∈ path := by
  rcases Relation.ReflTransGen.cases_tail he with rfl | ⟨mid, he', hm⟩
  · exact h.outer ho
  · exact h.coherent.outer ho (h.coherent.mem_of_encloses he' (h.outer hm))

theorem enter (h : Visitable g path id s) (hn : id ∉ s.visited) :
    Coherent g (id :: path) (s.enter id) where
  nodup := List.nodup_cons.mpr ⟨fun hp => hn (h.coherent.visited id hp), h.coherent.nodup⟩
  inRule other ho := by
    rcases List.mem_cons.mp ho with rfl | ho
    · exact h.inRule
    · exact h.coherent.inRule other ho
  outer ho hi := by
    rcases List.mem_cons.mp hi with rfl | hi
    · exact List.mem_cons_of_mem _ (h.outer ho)
    · exact List.mem_cons_of_mem _ (h.coherent.outer ho hi)
  visited other ho := by
    apply Exploration.mem_enter.mpr
    rcases List.mem_cons.mp ho with rfl | ho
    · exact .inl rfl
    · exact .inr (h.coherent.visited other ho)
  closed ho hi := by
    apply Exploration.mem_enter.mpr
    rcases Exploration.mem_enter.mp hi with rfl | hi
    · exact .inr (h.coherent.visited _ (h.outer ho))
    · exact .inr (h.coherent.closed ho hi)
  entered hb hv := by
    rcases Exploration.mem_enter.mp hv with rfl | hv
    · exact .inr List.mem_cons_self
    · exact (h.coherent.entered hb hv).imp_right (List.mem_cons_of_mem _)

theorem child (h : Visitable g path id s) (hg : g.Forest) (hn : id ∉ s.visited) {inner : ElementId}
    (ho : g.Holds id inner) : Visitable g (id :: path) inner (s.enter id) where
  coherent := h.enter hn
  inRule := Grammar.Forest.inRule_inner h.inRule ho
  outer ho' := by
    rw [hg.holds_unique ho' ho]
    exact List.mem_cons_self
  progress hv := by
    rcases Exploration.mem_enter.mp hv with rfl | hv
    · exact List.mem_cons_self
    · exact absurd (h.coherent.closed ho hv) hn
  ahead {behind} hl hv := by
    obtain ⟨top, he, hp⟩ := hl
    rcases eq_or_ne top inner with rfl | hne
    · obtain ⟨outer, hot, hob⟩ := hp.outer
      rw [hg.holds_unique hot ho] at hob
      rcases Exploration.mem_enter.mp hv with rfl | hv
      · exact hg.not_holds_self h.inRule hob
      · exact hn (h.coherent.closed hob hv)
    · have hl : g.Later id behind := ⟨top, hg.encloses_outer he hne ho, hp⟩
      rcases Exploration.mem_enter.mp hv with rfl | hv
      · exact hg.not_encloses_of_later h.inRule hl .refl
      · exact h.ahead hl hv
  uncalled hb := absurd ho (hg.not_holds_body hb)

theorem body (h : Visitable g path id s) (hg : g.Forest) (hn : id ∉ s.visited) {rule : RuleId}
    {inner : ElementId} (hb : g.IsBody rule inner) (hm : rule ∉ s.memo) :
    Visitable g (id :: path) inner (s.enter id) where
  coherent := h.enter hn
  inRule := Grammar.Forest.inRule_body hb
  outer ho := absurd ho (hg.not_holds_body hb)
  progress hv := by
    rcases Exploration.mem_enter.mp hv with rfl | hv
    · exact List.mem_cons_self
    · rcases h.coherent.entered hb hv with hm' | hp
      · exact absurd hm' hm
      · exact List.mem_cons_of_mem _ hp
  ahead hl := by
    obtain ⟨top, he, hp⟩ := hl
    obtain rfl := hg.eq_of_encloses_body hb he
    obtain ⟨outer, ho, -⟩ := hp.outer
    exact absurd ho (hg.not_holds_body hb)
  uncalled hb' := hg.owner hb hb' ▸ hm

theorem next (h : Visitable g path id s) (hg : g.Forest) {next : ElementId}
    (hnext : Visitable g path next s) (hp : g.Precedes id next) (ha : Advance g (· = id) s t) :
    Visitable g path next t := by
  have hrow := hp.outer
  have hbody : ∀ {rule body}, g.IsBody rule body → ¬ body = id := by
    intro rule body hb heq
    subst heq
    obtain ⟨outer, ho, -⟩ := hrow
    exact hg.not_holds_body hb ho
  have hlater : g.Later id next := Grammar.Forest.later_of_precedes hp
  refine ⟨h.coherent.advance ha hbody, hnext.inRule, hnext.outer, ?_, ?_, ?_⟩
  · intro hv
    by_contra hpath
    obtain ⟨outer, -, ho⟩ := hrow
    refine h.coherent.unvisited hg ha ho (h.coherent.visited _ (hnext.outer ho))
      (fun hs => hpath (hnext.progress hs)) ?_ hv
    intro _ heq
    subst heq
    exact hg.not_encloses_of_later h.inRule hlater
  · intro behind hl
    have ⟨top, he, hpt⟩ := hl
    obtain ⟨outer, hot, hob⟩ := hpt.outer
    refine h.coherent.unvisited hg ha hob (h.coherent.visited _ (hnext.mem_of_holds he hot))
      (hnext.ahead hl) ?_
    intro _ heq
    subst heq
    exact hg.not_encloses_of_later h.inRule (hg.later_of_precedes_later hp hl)
  · intro rule hb
    obtain ⟨outer, -, ho⟩ := hrow
    exact absurd ho (hg.not_holds_body hb)

theorem positioned (h : Visitable g path id s) (hg : g.Forest) (hn : id ∉ s.visited) :
    Positioned g (id :: path) id (s.enter id) where
  coherent := h.enter hn
  mem := List.mem_cons_self
  ahead hl hv := by
    rcases Exploration.mem_enter.mp hv with rfl | hv
    · exact hg.not_encloses_of_later h.inRule hl .refl
    · exact h.ahead hl hv

end Visitable

namespace Positioned

variable {member group : ElementId} {before after : List ElementId}

theorem visitable (h : Positioned g path id s) (hg : g.Forest)
    (hm : g.NearestGroup id member (some group))
    (hp : g.Plays group (.sequence (before ++ member :: after))) {behind : ElementId}
    (hb : behind ∈ after) : Visitable g path behind s := by
  have hl : g.Later id behind := hm.later_after hp hb
  have ho : g.Holds group behind := hp.holds_sequence (by simp [hb])
  have hgroup : group ∈ path := h.coherent.mem_of_encloses (hm.encloses_group hp) h.mem
  have hmember : g.Precedes member behind :=
    List.rel_of_pairwise_cons (List.pairwise_append.mp hp.pairwise_sequence).2.1 hb
  refine ⟨h.coherent, Grammar.Forest.inRule_inner (h.coherent.inRule group hgroup) ho, ?_, ?_, ?_, ?_⟩
  · intro outer ho'
    exact hg.holds_unique ho' ho ▸ hgroup
  · exact fun hv => absurd hv (h.ahead hl)
  · intro further hf
    obtain ⟨top, ht, hlt⟩ := Grammar.Forest.later_of_precedes_later hg hmember hf
    exact h.ahead ⟨top, ht.trans hm.encloses, hlt⟩
  · exact fun hbody => absurd ho (hg.not_holds_body hbody)

theorem climb (h : Positioned g path id s) (hg : g.Forest)
    (hm : g.NearestGroup id member (some group))
    (hp : g.Plays group (.sequence (before ++ member :: after)))
    (ha : Advance g (· ∈ after) s t) : Positioned g path group t := by
  have hgroup : group ∈ path := h.coherent.mem_of_encloses (hm.encloses_group hp) h.mem
  have hin := h.coherent.inRule group hgroup
  have hinner : ∀ behind ∈ after, g.Holds group behind := fun behind hb =>
    hp.holds_sequence (by simp [hb])
  refine ⟨h.coherent.advance ha ?_, hgroup, ?_⟩
  · exact fun hb ht => hg.not_holds_body hb (hinner _ ht)
  · intro behind hl
    have ⟨top, he, hpt⟩ := hl
    obtain ⟨outer, hot, hob⟩ := hpt.outer
    have houter : outer ∈ path :=
      h.coherent.outer hot (h.coherent.mem_of_encloses he hgroup)
    refine h.coherent.unvisited hg ha hob (h.coherent.visited _ houter)
      (h.ahead (Grammar.Forest.later_outer hl (hm.encloses_group hp))) ?_
    exact fun target ht he => hg.not_encloses_of_later hin hl (.head (hinner target ht) he)

end Positioned

namespace Explores

theorem exists_sequence (hg : g.Forest) {depth : Nat}
    (hopen : ∀ s id, Visitable g path id s → ∃ a t, Explores g depth path (.openings id) s a t)
    {ids : List ElementId} (hv : ∀ id ∈ ids, Visitable g path id s)
    (hrow : ids.Pairwise g.Precedes) : ∃ a t, Explores g depth path (.sequence ids) s a t := by
  induction ids generalizing s with
  | nil => exact ⟨_, _, .sequenceNil⟩
  | cons id rest ih =>
    have hid := hv id List.mem_cons_self
    obtain ⟨a, t, h⟩ := hopen s id hid
    cases a with
    | none => exact ⟨_, _, .sequenceNone h⟩
    | some found =>
      cases ho : (t.context.seen g id).isOptional with
      | false => exact ⟨_, _, .sequenceStop h ho⟩
      | true =>
        obtain ⟨b, u, hr⟩ := ih
          (fun next hn => hid.next hg (hv next (List.mem_cons_of_mem _ hn))
            (List.rel_of_pairwise_cons hrow hn) (h.advance hg))
          (List.pairwise_cons.mp hrow).2
        exact ⟨_, _, .sequenceStep h ho hr⟩

theorem exists_branches (hg : g.Forest) {depth : Nat}
    (hopen : ∀ s id, Visitable g path id s → ∃ a t, Explores g depth path (.openings id) s a t)
    {ids : List ElementId} (hv : ∀ id ∈ ids, Visitable g path id s)
    (hrow : ids.Pairwise g.Precedes) : ∃ a t, Explores g depth path (.branches ids) s a t := by
  induction ids generalizing s with
  | nil => exact ⟨_, _, .branchesNil⟩
  | cons id rest ih =>
    have hid := hv id List.mem_cons_self
    obtain ⟨a, t, h⟩ := hopen s id hid
    obtain ⟨b, u, hr⟩ := ih
      (fun next hn => hid.next hg (hv next (List.mem_cons_of_mem _ hn))
        (List.rel_of_pairwise_cons hrow hn) (h.advance hg))
      (List.pairwise_cons.mp hrow).2
    exact ⟨_, _, .branchesCons h hr⟩

end Explores

namespace Grammar.Forest

theorem index_lt_size (hg : g.Forest) (h : g.InRule id) : id.index < g.elements.size := by
  obtain ⟨e, he⟩ := hg.isSome_of_inRule h
  exact (Array.getElem?_eq_some_iff.mp he).1

end Grammar.Forest

theorem Coherent.length_le (h : Coherent g path s) (hg : g.Forest) :
    path.length ≤ g.elements.size := by
  have hsub : path ⊆ g.elementIds := fun id hid =>
    Grammar.mem_elementIds.mpr (hg.index_lt_size (h.inRule id hid))
  simpa [Grammar.elementIds] using (h.nodup.subperm hsub).length_le

/-- The depth that the exploration of an element takes at the end of a path of the length. -/
def Grammar.openingsDepth (g : Grammar) (length : Nat) : Nat :=
  1 + (g.elements.size - length) * (g.elements.size + 2)

/-- The depth that lookahead behind an element takes at the end of a path of the length. -/
def Grammar.continuationsDepth (g : Grammar) (length : Nat) (id : ElementId) : Nat :=
  1 + (g.elements.size - id.index) + g.openingsDepth length

theorem Grammar.openingsDepth_cons (g : Grammar) {length : Nat} (h : length < g.elements.size) :
    g.openingsDepth length = g.openingsDepth (length + 1) + (g.elements.size + 2) := by
  obtain ⟨rest, hr⟩ := Nat.exists_eq_add_of_lt h
  have h1 : g.elements.size - length = rest + 1 := by omega
  have h2 : g.elements.size - (length + 1) = rest := by omega
  rw [openingsDepth, openingsDepth, h1, h2, Nat.succ_mul, Nat.add_assoc]

/-- An exploration in an allowed position has an end within the depth for it: each element that it
enters lengthens the path, which holds no element twice. -/
theorem Explores.total (hg : g.Forest) (depth : Nat) :
    (∀ path s id, Visitable g path id s → g.openingsDepth path.length ≤ depth →
      ∃ a t, Explores g depth path (.openings id) s a t) ∧
    ∀ path s id, Positioned g path id s → g.continuationsDepth path.length id ≤ depth →
      ∃ a t, Explores g depth path (.continuations id) s a t := by
  induction depth with
  | zero =>
    refine ⟨fun path s id _ hd => ?_, fun path s id _ hd => ?_⟩
    · simp [Grammar.openingsDepth] at hd
    · simp [Grammar.continuationsDepth] at hd
  | succ depth ih =>
    obtain ⟨hopen, hcont⟩ := ih
    constructor
    · intro path s id hv hd
      by_cases hn : id ∈ s.visited
      · exact ⟨_, _, .revisit (hv.progress hn) hn⟩
      have hlen := (hv.enter hn).length_le hg
      rw [List.length_cons] at hlen
      rw [g.openingsDepth_cons hlen] at hd
      have hopen' : ∀ s' inner, Visitable g (id :: path) inner s' →
          ∃ a t, Explores g depth (id :: path) (.openings inner) s' a t := fun s' inner h =>
        hopen _ s' inner h (by rw [List.length_cons]; omega)
      obtain ⟨e, he⟩ := hg.isSome_of_inRule hv.inRule
      have hp := Grammar.plays_of he
      cases hr : g.roleOf e.kind <;> rw [hr] at hp
      case leaf => exact ⟨_, _, .leaf hv hn hp⟩
      case closed => exact ⟨_, _, .closed hv hn hp⟩
      case sequence members =>
        obtain ⟨a, t, h⟩ := exists_sequence hg hopen'
          (fun inner hi => hv.child hg hn (hp.holds_sequence hi)) hp.pairwise_sequence
        exact ⟨_, _, .sequence hv hn hp h⟩
      case choice ids =>
        obtain ⟨a, t, h⟩ := exists_branches hg hopen'
          (fun inner hi => hv.child hg hn (hp.holds_choice hi)) hp.pairwise_choice
        exact ⟨_, _, .choice hv hn hp h⟩
      case action =>
        have hsize := hg.index_lt_size hv.inRule
        obtain ⟨a, t, h⟩ := hcont _ _ id (hv.positioned hg hn) (by
          rw [Grammar.continuationsDepth, List.length_cons]
          omega)
        exact ⟨_, _, .action hv hn hp h⟩
      case call rule body? =>
        cases hm : s.memo[rule]? with
        | some v => exact ⟨_, _, .known hv hn hp hm⟩
        | none =>
          have hm : rule ∉ s.memo := by
            intro hmem
            obtain ⟨v, hv⟩ := mem_memo_iff.mp hmem
            simp [hm] at hv
          have hbody : ∀ inner ∈ body?.toList, Visitable g (id :: path) inner (s.enter id) :=
            fun inner hi => hv.body hg hn (hp.isBody_iff.mpr (Option.mem_toList.mp hi)) hm
          obtain ⟨a, t, h⟩ := exists_branches hg hopen' hbody (by cases body? <;> simp)
          exact ⟨_, _, .called hv hn hp hm h⟩
    · intro path s id hpos hd
      obtain ⟨depth, rfl⟩ : ∃ d, depth = d + 1 := by
        refine ⟨depth - 1, ?_⟩
        simp only [Grammar.continuationsDepth, Grammar.openingsDepth] at hd
        omega
      have hin := hpos.coherent.inRule id hpos.mem
      obtain ⟨member, group?, hm⟩ := hg.nearestGroup_of_inRule hin
      cases hr : (s.context.seen g id).isRepeatable with
      | true => exact ⟨_, _, .again hpos hm (.inl hr)⟩
      | false =>
        cases hrm : (s.context.seen g member).isRepeatable with
        | true => exact ⟨_, _, .again hpos hm (.inr hrm)⟩
        | false =>
          cases group? with
          | none => exact ⟨_, _, .outermost hpos hm hr hrm⟩
          | some group =>
            obtain ⟨e, before, after, he, hk⟩ := hm.split group rfl
            have hp := Grammar.plays_sequence he hk
            have hgroup := hpos.climb hg hm hp (.refl _ _)
            have hlt : id.index < group.index :=
              Nat.lt_of_le_of_lt (hg.index_le_of_encloses hm.encloses)
                (hg.index_lt (hg.inRule_enclosing hin hm.encloses) (hp.holds_sequence (by simp)))
            have hsize := hg.index_lt_size (hgroup.coherent.inRule group hgroup.mem)
            rw [Grammar.continuationsDepth] at hd
            obtain ⟨a, t, h⟩ := exists_sequence hg
              (fun s' inner h => hopen path s' inner h (by omega))
              (fun behind hb => hpos.visitable hg hm hp hb)
              (List.pairwise_cons.mp (List.pairwise_append.mp hp.pairwise_sequence).2.1).2
            cases a with
            | none => exact ⟨_, _, .followNone hpos hm hr hrm hp h⟩
            | some found =>
              cases ho : found.all fun id => (t.context.seen g id).isOptional with
              | false => exact ⟨_, _, .settle hpos hm hr hrm hp h ho⟩
              | true =>
                obtain ⟨b, u, hc⟩ := hcont path t group (hpos.climb hg hm hp (h.advance hg)) (by
                  rw [Grammar.continuationsDepth]
                  omega)
                exact ⟨_, _, .climb hpos hm hr hrm hp h ho hc⟩

end GrammarLookahead
