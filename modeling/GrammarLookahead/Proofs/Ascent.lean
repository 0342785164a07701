import GrammarLookahead.Proofs.Arena

namespace GrammarLookahead.Grammar

open Relation

/-- Following the containers of `id` for the given number of steps leads to `top`. -/
inductive Climbs (g : Grammar) : Nat → ElementId → ElementId → Prop
  | here {id} : Climbs g 0 id id
  | up {steps id outer top} : g.container id = .ok (some outer) → Climbs g steps outer top →
      Climbs g (steps + 1) id top

/-- The way up from the element comes to an element that contains itself. -/
def Looped (g : Grammar) (id : ElementId) : Prop :=
  ∃ own, g.Holds own own ∧ g.Encloses own id

/-- The element is a group. -/
def IsGroup (g : Grammar) (id : ElementId) : Prop :=
  ∃ e, g.element? id = some e ∧ e.isGroup = true

/-- The element is somewhere inside a group. -/
def Grouped (g : Grammar) (id : ElementId) : Prop :=
  ∃ group, g.IsGroup group ∧ TransGen g.Holds group id

/-- `outer` is `inner` itself, or lies around it and neither is a group nor has one in between. -/
def Wraps (g : Grammar) : ElementId → ElementId → Prop :=
  ReflTransGen fun outer inner => g.Holds outer inner ∧ ¬ g.IsGroup outer

/-- The climb from `id` to the nearest group ends at `member`, directly inside of the group if there
is one, else inside of nothing. -/
structure Arrives (g : Grammar) (id member : ElementId) (group? : Option ElementId) : Prop where
  wraps : g.Wraps member id
  holds_iff : ∀ outer, g.Holds outer member ↔ outer ∈ group?
  isGroup : ∀ group ∈ group?, g.IsGroup group

variable {g : Grammar} {id around top : ElementId}

theorem Climbs.encloses (hg : g.Forest) {steps : Nat} (h : g.Climbs steps id top) :
    g.Encloses top id := by
  induction h with
  | here => exact .refl
  | up hc _ ih => exact ih.tail (hg.container_iff.mp hc)

theorem Issued.container_cases (hg : g.Forest) (h : g.Issued id) :
    g.container id = .ok none ∨ ∃ outer, g.container id = .ok (some outer) ∧ g.Holds outer id := by
  obtain ⟨e, he⟩ := h
  have hc : g.container id = .ok e.container := container_of he
  cases ho : e.container with
  | none => exact .inl (ho ▸ hc)
  | some outer =>
    rw [ho] at hc
    exact .inr ⟨outer, hc, hg.container_iff.mp hc⟩

namespace Looped

theorem inner (h : g.Looped around) (ho : g.Holds around id) : g.Looped id := by
  obtain ⟨own, hself, he⟩ := h
  exact ⟨own, hself, he.tail ho⟩

theorem outer (hg : g.Forest) (h : g.Looped id) (ho : g.Holds around id) : g.Looped around := by
  obtain ⟨own, hself, he⟩ := h
  by_cases hne : own = id
  · subst hne
    exact ⟨own, hself, hg.holds_unique hself ho ▸ .refl⟩
  · exact ⟨own, hself, hg.encloses_outer he hne ho⟩

theorem exists_outer (h : g.Looped id) : ∃ outer, g.Holds outer id := by
  obtain ⟨own, hself, he⟩ := h
  rcases ReflTransGen.cases_tail he with rfl | ⟨outer, -, ho⟩
  · exact ⟨_, hself⟩
  · exact ⟨outer, ho⟩

end Looped

/-- Inside a rule no way up comes to an element that contains itself. -/
theorem InRule.not_looped (hg : g.Forest) (h : g.InRule id) : ¬ g.Looped id := by
  intro hl
  obtain ⟨own, hself, he⟩ := hl
  exact hg.not_holds_self (hg.inRule_enclosing h he) hself

namespace Forest

theorem index_lt_of_ne (hg : g.Forest) (ho : g.Holds around id) (hne : around ≠ id) :
    id.index < around.index := by
  have hle : id.index ≤ around.index := hg.index_le ho
  have hindex : id.index ≠ around.index := fun hi => hne (ElementId.ext hi.symm)
  omega

/-- Following the containers ends, for want of a container or at an element that contains itself:
what else contains an element was made after it. -/
theorem exists_climb (hg : g.Forest) {id : ElementId} (h : g.Issued id) :
    ∃ steps top, steps + id.index < g.elements.size ∧ g.Climbs steps id top ∧
      (g.container top = .ok none ∨ g.container top = .ok (some top)) := by
  have hlt := h.index_lt
  rcases h.container_cases hg with hc | ⟨outer, hc, ho⟩
  · exact ⟨0, id, by omega, .here, .inl hc⟩
  by_cases heq : outer = id
  · subst heq
    exact ⟨0, outer, by omega, .here, .inr hc⟩
  · have hyounger := hg.index_lt_of_ne ho heq
    have hissued := ho.issued.index_lt
    obtain ⟨steps, top, hsteps, hclimb, htop⟩ := exists_climb hg ho.issued
    exact ⟨steps + 1, top, by omega, .up hc hclimb, htop⟩
termination_by g.elements.size - id.index

theorem not_holds_of_root (hg : g.Forest) (h : g.container id = .ok none) : ¬ g.Holds around id := by
  intro ho
  have hc := hg.container_iff.mpr ho
  rw [h] at hc
  cases hc

theorem not_looped_of_climbs (hg : g.Forest) {steps : Nat} (h : g.Climbs steps id top)
    (htop : g.container top = .ok none) : ¬ g.Looped id := by
  induction h with
  | here =>
    intro hl
    obtain ⟨outer, ho⟩ := hl.exists_outer
    exact hg.not_holds_of_root htop ho
  | up hc _ ih => exact fun hl => ih htop (hl.outer hg (hg.container_iff.mp hc))

/-- Following the containers comes to an element without one, in less steps than there are elements,
unless it comes to an element that contains itself. -/
theorem climbs_root_iff (hg : g.Forest) (h : g.Issued id) :
    (∃ steps top, steps < g.elements.size ∧ g.Climbs steps id top ∧ g.container top = .ok none) ↔
      ¬ g.Looped id := by
  constructor
  · intro hroot
    obtain ⟨steps, top, -, hclimb, htop⟩ := hroot
    exact hg.not_looped_of_climbs hclimb htop
  · intro hl
    obtain ⟨steps, top, hsteps, hclimb, htop | htop⟩ := hg.exists_climb h
    · exact ⟨steps, top, by omega, hclimb, htop⟩
    · exact absurd ⟨top, hg.container_iff.mp htop, hclimb.encloses hg⟩ hl

theorem outermostWithin_of_climbs {steps depth : Nat} (h : g.Climbs steps id top)
    (htop : g.container top = .ok none) (hd : steps < depth) :
    g.outermostWithin depth id = .ok top := by
  induction h generalizing depth with
  | here =>
    obtain ⟨depth, rfl⟩ := Nat.exists_eq_add_of_lt hd
    rw [outermostWithin, htop]
    rfl
  | up hc _ ih =>
    obtain ⟨depth, rfl⟩ := Nat.exists_eq_add_of_lt hd
    rw [outermostWithin, hc]
    exact ih htop (by omega)

theorem climbs_of_outermostWithin {depth : Nat} (h : g.outermostWithin depth id = .ok top) :
    ∃ steps, g.Climbs steps id top ∧ g.container top = .ok none := by
  induction depth generalizing id with
  | zero => cases h
  | succ depth ih =>
    obtain ⟨outer?, hc, h⟩ := bind_eq_ok.mp h
    cases outer? with
    | none =>
      cases h
      exact ⟨0, .here, hc⟩
    | some outer =>
      obtain ⟨steps, hclimb, htop⟩ := ih h
      exact ⟨steps + 1, .up hc hclimb, htop⟩

theorem outermostWithin_of_looped (hg : g.Forest) (h : g.Looped id) (depth : Nat) :
    g.outermostWithin depth id = .error .endless := by
  induction depth generalizing id with
  | zero => rfl
  | succ depth ih =>
    obtain ⟨outer, ho⟩ := h.exists_outer
    rw [outermostWithin, hg.container_iff.mpr ho]
    exact ih (h.outer hg ho)

theorem outermost_ends_iff (hg : g.Forest) (h : g.Issued id) :
    (∃ top, g.outermost id = .ok top) ↔ ¬ g.Looped id := by
  constructor
  · intro hends hl
    obtain ⟨top, htop⟩ := hends
    rw [outermost, hg.outermostWithin_of_looped hl] at htop
    cases htop
  · intro hl
    obtain ⟨steps, top, hsteps, hclimb, htop⟩ := (hg.climbs_root_iff h).mpr hl
    exact ⟨top, outermostWithin_of_climbs hclimb htop (by omega)⟩

theorem eq_top_of_climbs (hg : g.Forest) {steps : Nat} (h : g.Climbs steps id top)
    (htop : g.container top = .ok none) (he : g.Encloses around id)
    (hroot : g.container around = .ok none) : around = top := by
  induction h with
  | here =>
    rcases ReflTransGen.cases_tail he with heq | ⟨outer, -, ho⟩
    · exact heq.symm
    · exact absurd ho (hg.not_holds_of_root htop)
  | @up _ id outer _ hc _ ih =>
    have ho := hg.container_iff.mp hc
    have hne : around ≠ id := fun heq => hg.not_holds_of_root hroot (heq ▸ ho)
    exact ih htop (hg.encloses_outer he hne ho)

theorem bodyOwner?_eq_some_iff (hg : g.Forest) {body : ElementId} {rule : RuleId} :
    g.bodyOwner? body = some rule ↔ g.IsBody rule body := by
  constructor
  · intro h
    obtain ⟨i, hi, rfl⟩ := Option.map_eq_some_iff.mp h
    obtain ⟨hlt, hbody, -⟩ := Array.findIdx?_eq_some_iff_getElem.mp hi
    exact ⟨g.rules[i], Array.getElem?_eq_getElem hlt, eq_of_beq hbody⟩
  · intro h
    obtain ⟨r, hr, hbody⟩ := h
    cases hfound : g.bodyOwner? body with
    | none =>
      have hnone := Array.findIdx?_eq_none_iff.mp (Option.map_eq_none_iff.mp hfound)
      have hne := hnone r (Array.mem_of_getElem? hr)
      simp [hbody] at hne
    | some other =>
      obtain ⟨i, hi, rfl⟩ := Option.map_eq_some_iff.mp hfound
      obtain ⟨hlt, hother, -⟩ := Array.findIdx?_eq_some_iff_getElem.mp hi
      have hfirst : g.IsBody ⟨i⟩ body :=
        ⟨g.rules[i], Array.getElem?_eq_getElem hlt, eq_of_beq hother⟩
      exact congrArg some (hg.owner hfirst ⟨r, hr, hbody⟩)

theorem owner_eq_some_iff (hg : g.Forest) {owner? : Option RuleId} (h : g.owner id = .ok owner?)
    {rule : RuleId} : owner? = some rule ↔ ∃ body, g.IsBody rule body ∧ g.Encloses body id := by
  obtain ⟨top, htop, hb⟩ := bind_eq_ok.mp (show g.outermost id >>= _ = _ from h)
  cases hb
  obtain ⟨steps, hclimb, hroot⟩ := climbs_of_outermostWithin htop
  refine hg.bodyOwner?_eq_some_iff.trans ⟨fun hbody => ⟨top, hbody, hclimb.encloses hg⟩, ?_⟩
  intro howns
  obtain ⟨body, hbody, he⟩ := howns
  have hbare : g.container body = .ok none := container_eq_ok_iff.mpr (hg.root hbody)
  exact hg.eq_top_of_climbs hclimb hroot he hbare ▸ hbody

theorem owner_ends_iff (hg : g.Forest) (h : g.Issued id) :
    (∃ owner?, g.owner id = .ok owner?) ↔ ¬ g.Looped id := by
  rw [← hg.outermost_ends_iff h]
  constructor
  · intro hends
    obtain ⟨owner?, howner⟩ := hends
    obtain ⟨top, htop, -⟩ := bind_eq_ok.mp (show g.outermost id >>= _ = _ from howner)
    exact ⟨top, htop⟩
  · intro hends
    obtain ⟨top, htop⟩ := hends
    exact ⟨g.bodyOwner? top, by rw [Grammar.owner, htop, map_ok]⟩

theorem not_isGroup {e : Element} (he : g.element? id = some e) (hk : e.isGroup = false) :
    ¬ g.IsGroup id := by
  intro hgroup
  obtain ⟨e', he', hk'⟩ := hgroup
  obtain rfl := Option.some.inj (he.symm.trans he')
  rw [hk] at hk'
  cases hk'

theorem isGroup_eq_false {e : Element} (he : g.element? around = some e) (ho : g.Holds around id)
    (h : ¬ g.Grouped id) : e.isGroup = false := by
  by_contra hgroup
  exact h ⟨around, ⟨e, he, by simpa using hgroup⟩, .single ho⟩

theorem not_grouped_outer (ho : g.Holds around id) (h : ¬ g.Grouped id) : ¬ g.Grouped around := by
  intro hgrouped
  obtain ⟨group, hk, hin⟩ := hgrouped
  exact h ⟨group, hk, hin.tail ho⟩

theorem isGroup_or_grouped (hg : g.Forest) (ho : g.Holds around id) (h : g.Grouped id) :
    g.IsGroup around ∨ g.Grouped around := by
  obtain ⟨group, hgroup, hin⟩ := h
  obtain ⟨outer, hin', ho'⟩ := TransGen.tail'_iff.mp hin
  obtain rfl := hg.holds_unique ho ho'
  rcases reflTransGen_iff_eq_or_transGen.mp hin' with rfl | hin'
  · exact .inl hgroup
  · exact .inr ⟨group, hgroup, hin'⟩

theorem eq_of_encloses_self (hg : g.Forest) (hself : g.Holds id id) (he : g.Encloses around id) :
    around = id := by
  induction he using ReflTransGen.head_induction_on with
  | refl => rfl
  | head ho _ ih => exact hg.holds_unique (ih ▸ ho) hself

theorem not_grouped_of_self (hg : g.Forest) {e : Element} (he : g.element? id = some e)
    (hk : e.isGroup = false) (hself : g.Holds id id) : ¬ g.Grouped id := by
  intro hgrouped
  obtain ⟨group, hgroup, hin⟩ := hgrouped
  obtain rfl := hg.eq_of_encloses_self hself hin.to_reflTransGen
  exact not_isGroup he hk hgroup

theorem exists_groupAroundWithin (hg : g.Forest) {depth : Nat} (hid : g.Issued id)
    (hd : g.elements.size ≤ depth + id.index) (h : ¬ g.Looped id ∨ g.Grouped id) :
    ∃ found, g.groupAroundWithin depth id = .ok found := by
  induction depth generalizing id with
  | zero =>
    have hlt := hid.index_lt
    omega
  | succ depth ih =>
    rcases hid.container_cases hg with hc | ⟨outer, hc, ho⟩
    · exact ⟨(id, none), by rw [groupAroundWithin, hc]; rfl⟩
    obtain ⟨e, he⟩ := ho.issued
    rw [groupAroundWithin, hc, ok_bind]
    simp only [element_eq_ok_iff.mpr he, ok_bind]
    cases hk : e.isGroup with
    | true => exact ⟨(id, some outer), rfl⟩
    | false =>
      have hnot : ¬ g.IsGroup outer := not_isGroup he hk
      have houter : ¬ g.Looped outer ∨ g.Grouped outer := by
        refine h.imp (fun hl hl' => hl (hl'.inner ho)) fun hgrouped => ?_
        exact (hg.isGroup_or_grouped ho hgrouped).resolve_left hnot
      have hne : outer ≠ id := by
        intro heq
        subst heq
        rcases h with hl | hgrouped
        · exact hl ⟨outer, ho, .refl⟩
        · exact hg.not_grouped_of_self he hk ho hgrouped
      have hyounger := hg.index_lt_of_ne ho hne
      exact ih ho.issued (by omega) houter

theorem groupAroundWithin_of_looped (hg : g.Forest) (h : g.Looped id) (hn : ¬ g.Grouped id)
    (depth : Nat) : g.groupAroundWithin depth id = .error .endless := by
  induction depth generalizing id with
  | zero => rfl
  | succ depth ih =>
    obtain ⟨outer, ho⟩ := h.exists_outer
    obtain ⟨e, he⟩ := ho.issued
    rw [groupAroundWithin, hg.container_iff.mpr ho, ok_bind]
    simp only [element_eq_ok_iff.mpr he, ok_bind, isGroup_eq_false he ho hn]
    exact ih (h.outer hg ho) (not_grouped_outer ho hn)

theorem groupAround_ends_iff (hg : g.Forest) (h : g.Issued id) :
    (∃ found, g.groupAround id = .ok found) ↔ ¬ g.Looped id ∨ g.Grouped id := by
  constructor
  · intro hends
    obtain ⟨found, hfound⟩ := hends
    by_contra hnot
    obtain ⟨hl, hn⟩ := not_or.mp hnot
    rw [groupAround, hg.groupAroundWithin_of_looped (not_not.mp hl) hn] at hfound
    cases hfound
  · intro hor
    exact hg.exists_groupAroundWithin h (by omega) hor

theorem arrives_within (hg : g.Forest) {steps : Nat} {member : ElementId}
    {group? : Option ElementId} (h : g.groupAroundWithin steps id = .ok (member, group?)) :
    g.Arrives id member group? := by
  induction steps generalizing id with
  | zero => cases h
  | succ steps ih =>
    obtain ⟨outer?, hc, h⟩ := bind_eq_ok.mp h
    cases outer? with
    | none =>
      cases h
      exact ⟨.refl, fun outer => by simp [← hg.container_iff, hc], by simp⟩
    | some outer =>
      have ho : g.Holds outer id := hg.container_iff.mp hc
      obtain ⟨e, he, h⟩ := bind_eq_ok.mp h
      have he' : g.element? outer = some e := element_eq_ok_iff.mp he
      cases hk : e.isGroup with
      | true =>
        simp only [hk, if_true] at h
        cases h
        exact ⟨.refl, fun other => by simp [← hg.container_iff, hc],
          fun group hgroup => by cases hgroup; exact ⟨e, he', hk⟩⟩
      | false =>
        simp only [hk, Bool.false_eq_true, if_false] at h
        have harrives := ih h
        exact ⟨harrives.wraps.tail ⟨ho, not_isGroup he' hk⟩, harrives.holds_iff, harrives.isGroup⟩

theorem arrives (hg : g.Forest) {member : ElementId} {group? : Option ElementId}
    (h : g.groupAround id = .ok (member, group?)) : g.Arrives id member group? :=
  hg.arrives_within h

end Forest

theorem Wraps.encloses {outer inner : ElementId} (h : g.Wraps outer inner) :
    g.Encloses outer inner :=
  h.lift id fun _ _ hs => hs.1

theorem Wraps.total (hg : g.Forest) {first second : ElementId} (h : g.Wraps first id)
    (h' : g.Wraps second id) : g.Wraps first second ∨ g.Wraps second first := by
  have hunique : Relator.RightUnique (Function.swap fun outer inner =>
      g.Holds outer inner ∧ ¬ g.IsGroup outer) := fun _ _ _ ho ho' => hg.holds_unique ho.1 ho'.1
  have hup := reflTransGen_swap.mpr h
  have hup' := reflTransGen_swap.mpr h'
  exact (ReflTransGen.total_of_right_unique hunique hup hup').symm.imp reflTransGen_swap.mp
    reflTransGen_swap.mp

namespace Arrives

variable {member : ElementId} {group? : Option ElementId}

theorem isGroup_of_holds (h : g.Arrives id member group?) (ho : g.Holds around member) :
    g.IsGroup around :=
  h.isGroup around ((h.holds_iff around).mp ho)

theorem eq_of_wraps (hg : g.Forest) (h : g.Arrives id member group?) (hw : g.Wraps around id)
    (hend : ∀ outer, g.Holds outer around → g.IsGroup outer) : around = member := by
  rcases hw.total hg h.wraps with hw | hw
  · rcases ReflTransGen.cases_tail hw with heq | ⟨outer, -, ho, hnot⟩
    · exact heq.symm
    · exact absurd (h.isGroup_of_holds ho) hnot
  · rcases ReflTransGen.cases_tail hw with heq | ⟨outer, -, ho, hnot⟩
    · exact heq
    · exact absurd (hend outer ho) hnot

theorem grouped_iff (hg : g.Forest) (h : g.Arrives id member group?) :
    g.Grouped id ↔ ∃ group, group? = some group := by
  constructor
  · intro hgrouped
    by_contra hnone
    have hmember : ¬ g.Grouped member := by
      intro hgrouped'
      obtain ⟨group, -, hin⟩ := hgrouped'
      obtain ⟨outer, -, ho⟩ := TransGen.tail'_iff.mp hin
      exact hnone ⟨outer, (h.holds_iff outer).mp ho⟩
    have hway : ∀ {inner}, g.Wraps member inner → ¬ g.Grouped inner := by
      intro inner hw
      induction hw with
      | refl => exact hmember
      | tail _ ho ih => exact fun hin => (hg.isGroup_or_grouped ho.1 hin).elim ho.2 ih
    exact hway h.wraps hgrouped
  · intro hgroup
    obtain ⟨group, rfl⟩ := hgroup
    have ho : g.Holds group member := (h.holds_iff group).mpr rfl
    exact ⟨group, h.isGroup group rfl, TransGen.head' ho h.wraps.encloses⟩

end Arrives

theorem Forest.grouped_iff (hg : g.Forest) {member : ElementId} {group? : Option ElementId}
    (hga : g.groupAround id = .ok (member, group?)) : g.Grouped id ↔ ∃ group, group? = some group :=
  (hg.arrives hga).grouped_iff hg

end GrammarLookahead.Grammar
