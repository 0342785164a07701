import GrammarLookahead.Proofs.Ownership

namespace GrammarLookahead

open Relation

namespace Grammar

/-- Of the groups around the element, the group is the one that lies inside all others. -/
structure Nearest (g : Grammar) (id group : ElementId) : Prop where
  isGroup : g.IsGroup group
  around : TransGen g.Holds group id
  /-- Between the two there is none. -/
  between : ∀ {mid}, TransGen g.Holds group mid → TransGen g.Holds mid id → ¬ g.IsGroup mid
  outside : ∀ {other}, g.IsGroup other → TransGen g.Holds other id → g.Encloses other group

/-- The element is the member of its nearest group or lies in that member, which is written once in the
group. What comes after the member are all members that are written behind it. -/
structure StandsIn (g : Grammar) (id member group : ElementId) : Prop where
  nearest : g.Nearest id group
  encloses : g.Encloses member id
  row : ∃ before after, g.children group = .ok (before ++ member :: after) ∧
    (before ++ member :: after).count member = 1 ∧ g.membersAfter group member = .ok after

/-- No group lies around the element, and `top` is the outermost element around it. -/
structure StandsAlone (g : Grammar) (id top : ElementId) : Prop where
  encloses : g.Encloses top id
  root : g.container top = .ok none
  ungrouped : ∀ {other}, TransGen g.Holds other id → ¬ g.IsGroup other

variable {g : Grammar} {id around member group top : ElementId}

theorem IsGroup.row (h : g.IsGroup group) (ho : g.Holds group member) :
    ∃ e before after, g.element? group = some e ∧
      e.kind = .group (before ++ member :: after) := by
  obtain ⟨e, he, hk⟩ := h
  obtain ⟨e', he', hm⟩ := ho
  obtain rfl : e = e' := Option.some.inj (he.symm.trans he')
  cases hkind : e.kind with
  | group members =>
    have hmember : member ∈ members := by
      simpa only [Element.children, hkind, ElementKind.children] using hm
    obtain ⟨before, after, rfl⟩ := List.append_of_mem hmember
    exact ⟨e, before, after, he, hkind⟩
  | _ => simp [Element.isGroup, hkind, ElementKind.isGroup] at hk

theorem Encloses.issued (he : g.Encloses around id) (hid : g.Issued id) : g.Issued around := by
  rcases ReflTransGen.cases_head he with rfl | ⟨inner, ho, -⟩
  · exact hid
  · exact ho.issued

theorem Looped.of_encloses (h : g.Looped around) (he : g.Encloses around id) : g.Looped id := by
  obtain ⟨own, hself, hown⟩ := h
  exact ⟨own, hself, hown.trans he⟩

theorem Wraps.cases_around (hg : g.Forest) (hw : g.Wraps member id)
    (h : TransGen g.Holds around id) : ¬ g.IsGroup around ∨ TransGen g.Holds around member := by
  induction hw with
  | refl => exact .inr h
  | @tail outer inner _ hstep ih =>
    obtain ⟨ho, hnot⟩ := hstep
    obtain ⟨outer', he, ho'⟩ := TransGen.tail'_iff.mp h
    obtain rfl : outer' = outer := hg.holds_unique ho' ho
    rcases reflTransGen_iff_eq_or_transGen.mp he with heq | hin
    · exact .inl (heq ▸ hnot)
    · exact ih hin

theorem Forest.encloses_of_around (hg : g.Forest) (ho : g.Holds around id) {outer : ElementId}
    (h : TransGen g.Holds outer id) : g.Encloses outer around := by
  obtain ⟨around', he, ho'⟩ := TransGen.tail'_iff.mp h
  exact hg.holds_unique ho' ho ▸ he

namespace Arrives

theorem nearest (hg : g.Forest) (h : g.Arrives id member (some group)) (hl : ¬ g.Looped id) :
    g.Nearest id group := by
  have ho : g.Holds group member := (h.holds_iff group).mpr rfl
  have hin : TransGen g.Holds group id := TransGen.head' ho h.wraps.encloses
  refine ⟨h.isGroup group rfl, hin, ?_, ?_⟩
  · intro mid hout hmid
    rcases h.wraps.cases_around hg hmid with hnot | hmember
    · exact hnot
    · -- What lies around the member lies around the group, so the group would lie around itself.
      have hcycle : TransGen g.Holds group group :=
        hout.trans_left (hg.encloses_of_around ho hmember)
      have hloop : g.Looped group := hg.looped_of_cycle hcycle
      exact absurd (hloop.of_encloses hin.to_reflTransGen) hl
  · intro other hother haround
    rcases h.wraps.cases_around hg haround with hnot | hmember
    · exact absurd hother hnot
    · exact hg.encloses_of_around ho hmember

theorem standsIn (hg : g.Forest) (h : g.Arrives id member (some group)) (hl : ¬ g.Looped id) :
    g.StandsIn id member group := by
  have ho : g.Holds group member := (h.holds_iff group).mpr rfl
  obtain ⟨e, before, after, he, hk⟩ := (h.isGroup group rfl).row ho
  have hchildren : e.children = before ++ member :: after := by
    rw [Element.children, hk, ElementKind.children]
  have hnodup : (before ++ member :: after).Nodup := hchildren ▸ hg.nodup he
  refine ⟨h.nearest hg hl, h.wraps.encloses, before, after, ?_, ?_, ?_⟩
  · exact children_eq_ok_iff.mpr ⟨e, he, hchildren⟩
  · exact List.count_eq_one_of_mem hnodup (by simp)
  · exact hg.membersAfter_eq he hk

theorem standsAlone (hg : g.Forest) (h : g.Arrives id top none) (hid : g.Issued top) :
    g.StandsAlone id top := by
  have hroot : ∀ outer, ¬ g.Holds outer top := by
    intro outer ho
    have hnone := (h.holds_iff outer).mp ho
    simp at hnone
  refine ⟨h.wraps.encloses, ?_, ?_⟩
  · rcases hid.container_cases hg with hc | ⟨outer, -, ho⟩
    · exact hc
    · exact absurd ho (hroot outer)
  · intro other haround
    rcases h.wraps.cases_around hg haround with hnot | hmember
    · exact hnot
    · obtain ⟨outer, -, ho⟩ := TransGen.tail'_iff.mp hmember
      exact absurd ho (hroot outer)

end Arrives

theorem Climbs.issued (hg : g.Forest) {steps : Nat} (h : g.Climbs steps id top)
    (htop : g.container top = .ok none) : g.Issued id := by
  cases h with
  | here =>
    obtain ⟨e, he, -⟩ := container_eq_ok_iff.mp htop
    exact ⟨e, he⟩
  | up hc _ => exact hg.issued_inner (hg.container_iff.mp hc)

end Grammar

/-- In a grammar that has been built, the group around an element is found from wherever the way up has
an end: the nearest one, with the member of it that the element is in, or none and the outermost
element where no group lies around. -/
theorem groupAround_of_climbs {name : String} {commands : List Command} {g : Grammar}
    (h : Grammar.build name commands = .ok g) {steps : Nat} {id top : ElementId}
    (hclimb : g.Climbs steps id top) (htop : g.container top = .ok none) :
    (∃ member group, g.groupAround id = .ok (member, some group) ∧ g.StandsIn id member group) ∨
      g.groupAround id = .ok (top, none) ∧ g.StandsAlone id top := by
  have hg := Grammar.forest_of_build h
  have hid : g.Issued id := hclimb.issued hg htop
  have hl : ¬ g.Looped id := hg.not_looped_of_climbs hclimb htop
  obtain ⟨⟨member, group?⟩, hfound⟩ := (hg.groupAround_ends_iff hid).mpr (.inl hl)
  have harrives := hg.arrives hfound
  cases group? with
  | some group => exact .inl ⟨member, group, hfound, harrives.standsIn hg hl⟩
  | none =>
    have halone := harrives.standsAlone hg (harrives.wraps.encloses.issued hid)
    obtain rfl : member = top := hg.eq_top_of_climbs hclimb htop halone.encloses halone.root
    exact .inr ⟨hfound, halone⟩

/-- The rule `R: ('a' (x=[T:'b'] | 'c')) 'd'`, and a choice that no rule and no group has. -/
def wrapped : Grammar where
  name := "G"
  elements := #[⟨.keyword "a", .once, some ⟨6⟩⟩, ⟨.keyword "b", .once, some ⟨2⟩⟩,
    ⟨.crossReference "T" (some ⟨1⟩), .once, some ⟨3⟩⟩,
    ⟨.assignment "x" .assign ⟨2⟩, .once, some ⟨5⟩⟩, ⟨.keyword "c", .once, some ⟨5⟩⟩,
    ⟨.alternatives [⟨3⟩, ⟨4⟩], .once, some ⟨6⟩⟩, ⟨.group [⟨0⟩, ⟨5⟩], .once, some ⟨8⟩⟩,
    ⟨.keyword "d", .once, some ⟨8⟩⟩, ⟨.group [⟨6⟩, ⟨7⟩], .once, none⟩,
    ⟨.keyword "e", .once, some ⟨10⟩⟩, ⟨.alternatives [⟨9⟩], .once, none⟩]
  rules := #[.parser { name := "R", body := some ⟨8⟩ }]

theorem build_wrapped : Grammar.build "G" [.add (.keyword "a"), .add (.keyword "b"),
    .add (.crossReference "T" (some ⟨1⟩)), .add (.assignment "x" .assign ⟨2⟩), .add (.keyword "c"),
    .add (.alternatives [⟨3⟩, ⟨4⟩]), .add (.group [⟨0⟩, ⟨5⟩]), .add (.keyword "d"),
    .add (.group [⟨6⟩, ⟨7⟩]), .declare (.parser { name := "R", body := some ⟨8⟩ }),
    .add (.keyword "e"), .add (.alternatives [⟨9⟩])] = .ok wrapped := by
  decide +kernel

/-- From `'b'` the climb leaves the reference and the assignment behind and ends at the choice, which
is the last member of the inner group. From `'e'` it ends at the choice around it. -/
theorem groupAround_wrapped : ∃ steps steps', wrapped.Climbs steps ⟨1⟩ ⟨8⟩ ∧
    wrapped.container ⟨8⟩ = .ok none ∧ wrapped.StandsIn ⟨1⟩ ⟨5⟩ ⟨6⟩ ∧
    wrapped.membersAfter ⟨6⟩ ⟨5⟩ = .ok [] ∧ wrapped.Climbs steps' ⟨9⟩ ⟨10⟩ ∧
    wrapped.container ⟨10⟩ = .ok none ∧ wrapped.StandsAlone ⟨9⟩ ⟨10⟩ := by
  have hin : wrapped.groupAround ⟨1⟩ = .ok (⟨5⟩, some ⟨6⟩) := by decide +kernel
  have halone : wrapped.groupAround ⟨9⟩ = .ok (⟨10⟩, none) := by decide +kernel
  have hclimb : wrapped.Climbs 5 ⟨1⟩ ⟨8⟩ :=
    .up rfl (.up rfl (.up rfl (.up rfl (.up rfl .here))))
  have hclimb' : wrapped.Climbs 1 ⟨9⟩ ⟨10⟩ := .up rfl .here
  refine ⟨5, 1, hclimb, rfl, ?_, by decide +kernel, hclimb', rfl, ?_⟩
  · rcases groupAround_of_climbs build_wrapped hclimb rfl with ⟨member, group, hfound, hstands⟩ | h
    · cases hin.symm.trans hfound
      exact hstands
    · cases hin.symm.trans h.1
  · rcases groupAround_of_climbs build_wrapped hclimb' rfl with ⟨member, group, hfound, -⟩ | h
    · cases halone.symm.trans hfound
    · exact h.2

end GrammarLookahead
