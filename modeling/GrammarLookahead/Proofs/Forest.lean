import GrammarLookahead.Grammar.Ancestry
import GrammarLookahead.Proofs.Effective
import Mathlib.Data.List.Nodup
import Mathlib.Logic.Relation

namespace GrammarLookahead.Grammar

/-- `inner` is written directly inside `outer`. -/
def Holds (g : Grammar) (outer inner : ElementId) : Prop :=
  ∃ e, g.element? outer = some e ∧ inner ∈ e.children

/-- `outer` is `inner` itself or lies around it. -/
def Encloses (g : Grammar) : ElementId → ElementId → Prop :=
  Relation.ReflTransGen g.Holds

/-- The rule has the element as its body. -/
def IsBody (g : Grammar) (rule : RuleId) (body : ElementId) : Prop :=
  ∃ r, g.rule? rule = some r ∧ r.body? = some body

/-- The rule has the element in its body. -/
def Owns (g : Grammar) (rule : RuleId) (id : ElementId) : Prop :=
  ∃ body, g.IsBody rule body ∧ g.Encloses body id

/-- The element is part of the body of a rule. -/
def InRule (g : Grammar) (id : ElementId) : Prop :=
  ∃ rule body, g.IsBody rule body ∧ g.Encloses body id

/-- The element is part of a rule whose body has the property. -/
def Within (g : Grammar) (P : ElementId → Prop) (id : ElementId) : Prop :=
  ∃ rule body, g.IsBody rule body ∧ g.Encloses body id ∧ P body

/-- Both elements are written directly inside the same one, `first` before `second`. -/
def Precedes (g : Grammar) (first second : ElementId) : Prop :=
  ∃ outer e, g.element? outer = some e ∧
    ∃ i j : Nat, i < j ∧ e.children[i]? = some first ∧ e.children[j]? = some second

/-- `second` is written directly after an element that is `first` or lies around it, or further
behind in the same row. -/
def Later (g : Grammar) (first second : ElementId) : Prop :=
  ∃ outer, g.Encloses outer first ∧ g.Precedes outer second

/-- Containers and children say the same, nothing is held twice, and a rule body is held by nothing
and is the body of that rule alone. An element comes after all that it holds, save for one that was
made to hold itself. -/
structure Forest (g : Grammar) : Prop where
  holds_iff : ∀ {outer inner}, g.Holds outer inner ↔
    ∃ e, g.element? inner = some e ∧ e.container = some outer
  nodup : ∀ {id e}, g.element? id = some e → e.children.Nodup
  index_le : ∀ {outer inner}, g.Holds outer inner → inner.index ≤ outer.index
  root : ∀ {rule body}, g.IsBody rule body →
    ∃ e, g.element? body = some e ∧ e.container = none
  owner : ∀ {rule rule' body}, g.IsBody rule body → g.IsBody rule' body → rule = rule'

variable {g : Grammar}

theorem Holds.issued {outer inner : ElementId} (h : g.Holds outer inner) : g.Issued outer := by
  obtain ⟨e, he, -⟩ := h
  exact ⟨e, he⟩

namespace Forest

theorem issued_inner (hg : Forest g) {outer inner : ElementId} (h : g.Holds outer inner) :
    g.Issued inner := by
  obtain ⟨e, he, -⟩ := hg.holds_iff.mp h
  exact ⟨e, he⟩

theorem holds_unique (hg : Forest g) {outer outer' inner : ElementId}
    (h : g.Holds outer inner) (h' : g.Holds outer' inner) : outer = outer' := by
  obtain ⟨e, he, hc⟩ := hg.holds_iff.mp h
  obtain ⟨e', he', hc'⟩ := hg.holds_iff.mp h'
  rw [he] at he'
  obtain rfl := Option.some.inj he'
  exact Option.some.inj (hc.symm.trans hc')

theorem not_holds_body (hg : Forest g) {rule : RuleId} {outer body : ElementId}
    (hb : g.IsBody rule body) : ¬ g.Holds outer body := by
  intro h
  obtain ⟨e, he, hc⟩ := hg.root hb
  obtain ⟨e', he', hc'⟩ := hg.holds_iff.mp h
  rw [he] at he'
  obtain rfl := Option.some.inj he'
  simp [hc] at hc'

theorem inRule_body {rule : RuleId} {body : ElementId} (hb : g.IsBody rule body) :
    g.InRule body :=
  ⟨rule, body, hb, .refl⟩

theorem inRule_inner {outer inner : ElementId} (h : g.InRule outer) (ho : g.Holds outer inner) :
    g.InRule inner := by
  obtain ⟨rule, body, hb, he⟩ := h
  exact ⟨rule, body, hb, he.tail ho⟩

theorem inRule_outer (hg : Forest g) {outer inner : ElementId} (h : g.InRule inner)
    (ho : g.Holds outer inner) : g.InRule outer := by
  obtain ⟨rule, body, hb, he⟩ := h
  rcases Relation.ReflTransGen.cases_tail he with rfl | ⟨outer', he', ho'⟩
  · exact absurd ho (hg.not_holds_body hb)
  · exact ⟨rule, body, hb, hg.holds_unique ho' ho ▸ he'⟩

theorem inRule_enclosing (hg : Forest g) {outer inner : ElementId} (h : g.InRule inner)
    (he : g.Encloses outer inner) : g.InRule outer := by
  induction he with
  | refl => exact h
  | tail _ ho ih => exact ih (hg.inRule_outer h ho)

/-- Inside a rule no element holds itself: the root would have to be one that does. -/
theorem not_holds_self (hg : Forest g) {id : ElementId} (h : g.InRule id) :
    ¬ g.Holds id id := by
  obtain ⟨rule, body, hb, he⟩ := h
  induction he with
  | refl => exact hg.not_holds_body hb
  | tail _ ho ih =>
    intro hs
    obtain rfl := hg.holds_unique ho hs
    exact ih hs

theorem index_lt (hg : Forest g) {outer inner : ElementId} (h : g.InRule inner)
    (ho : g.Holds outer inner) : inner.index < outer.index := by
  have hle := hg.index_le ho
  have hne : inner.index ≠ outer.index := by
    intro he
    obtain rfl := ElementId.ext he
    exact hg.not_holds_self h ho
  omega

theorem index_le_of_encloses (hg : Forest g) {outer inner : ElementId}
    (he : g.Encloses outer inner) : inner.index ≤ outer.index := by
  induction he with
  | refl => exact Nat.le_refl _
  | tail _ ho ih => exact Nat.le_trans (hg.index_le ho) ih

theorem encloses_outer (hg : Forest g) {top outer inner : ElementId} (he : g.Encloses top inner)
    (hne : top ≠ inner) (ho : g.Holds outer inner) : g.Encloses top outer := by
  rcases Relation.ReflTransGen.cases_tail he with h | ⟨outer', he', ho'⟩
  · exact absurd h.symm hne
  · exact hg.holds_unique ho' ho ▸ he'

theorem eq_of_encloses_body (hg : Forest g) {rule : RuleId} {outer body : ElementId}
    (hb : g.IsBody rule body) (he : g.Encloses outer body) : outer = body := by
  rcases Relation.ReflTransGen.cases_tail he with h | ⟨_, _, ho⟩
  · exact h.symm
  · exact absurd ho (hg.not_holds_body hb)

theorem not_encloses_outer (hg : Forest g) {outer inner : ElementId} (h : g.InRule inner)
    (ho : g.Holds outer inner) : ¬ g.Encloses inner outer := by
  intro he
  have hle := hg.index_le_of_encloses he
  have hlt := hg.index_lt h ho
  omega

theorem isSome_of_inRule (hg : Forest g) {id : ElementId} (h : g.InRule id) :
    ∃ e, g.element? id = some e := by
  obtain ⟨rule, body, hb, he⟩ := h
  rcases Relation.ReflTransGen.cases_tail he with rfl | ⟨_, _, ho⟩
  · obtain ⟨e, hs, -⟩ := hg.root hb
    exact ⟨e, hs⟩
  · exact hg.issued_inner ho

end Forest

theorem Precedes.outer {first second : ElementId} (h : g.Precedes first second) :
    ∃ outer, g.Holds outer first ∧ g.Holds outer second := by
  obtain ⟨outer, e, he, i, j, -, hi, hj⟩ := h
  exact ⟨outer, ⟨e, he, List.mem_of_getElem? hi⟩, ⟨e, he, List.mem_of_getElem? hj⟩⟩

namespace Forest

theorem precedes_ne (hg : Forest g) {first second : ElementId} (h : g.Precedes first second) :
    first ≠ second := by
  obtain ⟨outer, e, he, i, j, hij, hi, hj⟩ := h
  intro heq
  subst heq
  have hlt : i < e.children.length := (List.getElem?_eq_some_iff.mp hi).1
  have hsame := (List.getElem?_inj hlt (hg.nodup he)).mp (hi.trans hj.symm)
  omega

theorem precedes_trans (hg : Forest g) {first second third : ElementId}
    (h : g.Precedes first second) (h' : g.Precedes second third) : g.Precedes first third := by
  obtain ⟨outer, e, he, i, j, hij, hi, hj⟩ := h
  obtain ⟨outer', e', he', k, l, hkl, hk, hl⟩ := h'
  have hout : g.Holds outer second := ⟨e, he, List.mem_of_getElem? hj⟩
  have hout' : g.Holds outer' second := ⟨e', he', List.mem_of_getElem? hk⟩
  obtain rfl := hg.holds_unique hout hout'
  rw [he] at he'
  obtain rfl := Option.some.inj he'
  have hlt : j < e.children.length := (List.getElem?_eq_some_iff.mp hj).1
  obtain rfl := (List.getElem?_inj hlt (hg.nodup he)).mp (hj.trans hk.symm)
  exact ⟨outer, e, he, i, l, Nat.lt_trans hij hkl, hi, hl⟩

theorem not_encloses_of_later (hg : Forest g) {first second : ElementId} (h : g.InRule first)
    (hl : g.Later first second) : ¬ g.Encloses first second := by
  obtain ⟨top, ht, hp⟩ := hl
  obtain ⟨outer, hof, hos⟩ := hp.outer
  intro he
  have htop : g.InRule top := hg.inRule_enclosing h ht
  by_cases heq : first = second
  · subst heq
    rcases eq_or_ne top first with rfl | hne
    · exact hg.precedes_ne hp rfl
    · exact hg.not_encloses_outer htop hof (hg.encloses_outer ht hne hos)
  · have hfirst := hg.index_le_of_encloses (hg.encloses_outer he heq hos)
    have htf := hg.index_le_of_encloses ht
    have hlt := hg.index_lt htop hof
    omega

theorem later_of_precedes {first second : ElementId} (h : g.Precedes first second) :
    g.Later first second :=
  ⟨first, .refl, h⟩

theorem later_outer {outer inner second : ElementId} (h : g.Later outer second)
    (he : g.Encloses outer inner) : g.Later inner second := by
  obtain ⟨top, ht, hp⟩ := h
  exact ⟨top, ht.trans he, hp⟩

theorem later_of_precedes_later (hg : Forest g) {first second third : ElementId}
    (h : g.Precedes first second) (hl : g.Later second third) : g.Later first third := by
  obtain ⟨top, ht, hp⟩ := hl
  rcases eq_or_ne top second with rfl | hne
  · exact later_of_precedes (hg.precedes_trans h hp)
  · obtain ⟨outer, hof, hos⟩ := h.outer
    exact ⟨top, (hg.encloses_outer ht hne hos).tail hof, hp⟩

end Forest

theorem Within.of_encloses {P : ElementId → Prop} {outer inner : ElementId} (h : g.Within P outer)
    (he : g.Encloses outer inner) : g.Within P inner := by
  obtain ⟨rule, body, hb, he', hP⟩ := h
  exact ⟨rule, body, hb, he'.trans he, hP⟩

namespace Forest

variable {P : ElementId → Prop}

theorem of_within_body (hg : g.Forest) {rule : RuleId} {body : ElementId} (hb : g.IsBody rule body)
    (h : g.Within P body) : P body := by
  obtain ⟨_, outer, -, he, hP⟩ := h
  exact hg.eq_of_encloses_body hb he ▸ hP

theorem within_outer (hg : g.Forest) {outer inner : ElementId} (h : g.Within P inner)
    (ho : g.Holds outer inner) : g.Within P outer := by
  obtain ⟨rule, body, hb, he, hP⟩ := h
  have hne : body ≠ inner := fun heq => hg.not_holds_body hb (heq ▸ ho)
  exact ⟨rule, body, hb, hg.encloses_outer he hne ho, hP⟩

theorem within_enclosing (hg : g.Forest) {outer inner : ElementId} (h : g.Within P inner)
    (he : g.Encloses outer inner) : g.Within P outer := by
  induction he with
  | refl => exact h
  | tail _ ho ih => exact ih (hg.within_outer h ho)

theorem within_of_later (hg : g.Forest) {first second : ElementId} (hl : g.Later first second)
    (h : g.Within P second) : g.Within P first := by
  obtain ⟨top, ht, hp⟩ := hl
  obtain ⟨outer, hof, hos⟩ := hp.outer
  exact (hg.within_outer h hos).of_encloses ((Relation.ReflTransGen.single hof).trans ht)

end Forest

theorem pairwise_precedes {id : ElementId} {e : Element}
    (he : g.element? id = some e) : e.children.Pairwise g.Precedes := by
  rw [List.pairwise_iff_getElem]
  intro i j hi hj hij
  exact ⟨id, e, he, i, j, hij, List.getElem?_eq_getElem hi, List.getElem?_eq_getElem hj⟩

theorem container_of {id : ElementId} {e : Element} (he : g.element? id = some e) :
    g.container id = .ok e.container := by
  simp [container, element_eq_ok_iff.mpr he]

theorem tail_dropWhile_split {before after : List ElementId} {member : ElementId}
    (h : (before ++ member :: after).Nodup) :
    ((before ++ member :: after).dropWhile (· != member)).tail = after := by
  have hall : ∀ a ∈ before, (a != member) = true := by
    intro a ha
    exact bne_iff_ne.mpr ((List.nodup_append.mp h).2.2 a ha member (by simp))
  rw [List.dropWhile_append_of_pos hall]
  simp

/-- What a climb from `id` to the nearest group finds. -/
structure NearestGroup (g : Grammar) (id member : ElementId) (group? : Option ElementId) :
    Prop where
  answer : g.groupAround id = .ok (member, group?)
  encloses : g.Encloses member id
  split : ∀ group, group? = some group → ∃ e before after,
    g.element? group = some e ∧ e.kind = .group (before ++ member :: after)

namespace Forest

theorem groupAroundWithin_ok (hg : Forest g) {steps : Nat} {id : ElementId} (h : g.InRule id)
    (hs : g.elements.size ≤ steps + id.index) :
    ∃ member group?, g.groupAroundWithin steps id = .ok (member, group?) ∧
      g.Encloses member id ∧ ∀ group, group? = some group → ∃ e before after,
        g.element? group = some e ∧ e.kind = .group (before ++ member :: after) := by
  induction steps generalizing id with
  | zero =>
    obtain ⟨e, he⟩ := hg.isSome_of_inRule h
    have hlt : id.index < g.elements.size := (Array.getElem?_eq_some_iff.mp he).1
    omega
  | succ steps ih =>
    obtain ⟨e, he⟩ := hg.isSome_of_inRule h
    rw [groupAroundWithin, container_of he, ok_bind]
    cases hc : e.container with
    | none => exact ⟨id, none, rfl, .refl, by simp⟩
    | some outer =>
      have ho : g.Holds outer id := hg.holds_iff.mpr ⟨e, he, hc⟩
      have houter := hg.inRule_outer h ho
      obtain ⟨f, hf, hm⟩ := ho
      simp only [element_eq_ok_iff.mpr hf, ok_bind]
      cases hk : f.isGroup with
      | true =>
        refine ⟨id, some outer, rfl, .refl, ?_⟩
        intro _ heq
        cases heq
        unfold Element.isGroup ElementKind.isGroup at hk
        unfold Element.children ElementKind.children at hm
        split at hk
        · rename_i elements heq
          simp only [heq] at hm
          obtain ⟨before, after, rfl⟩ := List.append_of_mem hm
          exact ⟨f, before, after, hf, heq⟩
        · cases hk
      | false =>
        have hlt := hg.index_lt h ⟨f, hf, hm⟩
        obtain ⟨member, group?, heq, henc, hsplit⟩ := ih houter (by omega)
        exact ⟨member, group?, heq, henc.tail ⟨f, hf, hm⟩, hsplit⟩

theorem nearestGroup_of_inRule (hg : Forest g) {id : ElementId} (h : g.InRule id) :
    ∃ member group?, g.NearestGroup id member group? := by
  obtain ⟨member, group?, hans, henc, hsplit⟩ :=
    hg.groupAroundWithin_ok h (show g.elements.size ≤ g.elements.size + 1 + id.index by omega)
  exact ⟨member, group?, hans, henc, hsplit⟩

theorem membersAfter_eq (hg : Forest g) {group member : ElementId} {e : Element}
    {before after : List ElementId} (he : g.element? group = some e)
    (hk : e.kind = .group (before ++ member :: after)) :
    g.membersAfter group member = .ok after := by
  have hn := hg.nodup he
  simp only [Element.children, hk, ElementKind.children] at hn
  simp only [membersAfter, element_eq_ok_iff.mpr he, ok_bind, hk, tail_dropWhile_split hn,
    pure_eq_ok]

end Forest

end GrammarLookahead.Grammar
