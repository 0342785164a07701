import GrammarLookahead.Construction.Command
import GrammarLookahead.Proofs.Forest

namespace GrammarLookahead

namespace Draft

/-- The element directly around an element. -/
def containerOf (d : Draft) (id : ElementId) : Option ElementId :=
  (d.elements[id.index]?).bind Element.container

/-- The elements directly inside an element. -/
def childrenOf (d : Draft) (id : ElementId) : List ElementId :=
  ((d.elements[id.index]?).map Element.children).getD []

/-- The draft is a forest in which the elements have taken in the children that `taken` says. -/
structure Grown (d : Draft) (taken : ElementId → List ElementId) : Prop where
  mem_taken : ∀ {outer inner}, inner ∈ taken outer ↔ d.containerOf inner = some outer
  nodup : ∀ id, (taken id).Nodup
  index_le : ∀ {outer inner}, inner ∈ taken outer → inner.index ≤ outer.index
  root : ∀ {i : Nat} {r : Rule} {body}, d.rules[i]? = some r → r.body? = some body →
    body.index < d.elements.size ∧ d.containerOf body = none
  owner : ∀ {i j : Nat} {r r' : Rule} {body}, d.rules[i]? = some r → d.rules[j]? = some r' →
    r.body? = some body → r'.body? = some body → i = j

theorem not_mistake_of_fail {d : Draft} {e : DraftError} : (d.fail e).mistake ≠ none := by
  simp [mistake_fail]

theorem enclose_cases {d : Draft} {parent child : ElementId}
    (h : (d.enclose parent child).mistake = none) :
    d.mistake = none ∧ d.bodyOwner? child = none ∧ child.index < d.elements.size ∧
      d.containerOf child = none ∧ d.enclose parent child =
        { d with elements := d.elements.modify child.index ({ · with container := some parent }) } := by
  unfold enclose at h ⊢
  split_ifs at h ⊢ with hb
  · exact absurd h not_mistake_of_fail
  · split at h
    · exact absurd h not_mistake_of_fail
    · rename_i e he
      split at h
      · exact absurd h not_mistake_of_fail
      · rename_i hc
        have hlt : child.index < d.elements.size := (Array.getElem?_eq_some_iff.mp he).1
        simp only [Option.not_isSome_iff_eq_none] at hb
        exact ⟨h, hb, hlt, by simp [containerOf, he, hc], rfl⟩

theorem containerOf_modify {d : Draft} {parent child id : ElementId}
    (hlt : child.index < d.elements.size) :
    ({ d with elements := d.elements.modify child.index ({ · with container := some parent }) } :
      Draft).containerOf id = if id = child then some parent else d.containerOf id := by
  unfold containerOf
  rw [Array.getElem?_modify]
  by_cases hi : child.index = id.index
  · obtain rfl := ElementId.ext hi
    simp [hlt]
  · have hne : id ≠ child := fun he => hi (he ▸ rfl)
    simp [hi, hne]

theorem childrenOf_modify {d : Draft} {f : Element → Element} {i : Nat} {id : ElementId}
    (hf : ∀ e, (f e).children = e.children) :
    ({ d with elements := d.elements.modify i f } : Draft).childrenOf id = d.childrenOf id := by
  unfold childrenOf
  rw [Array.getElem?_modify]
  split_ifs
  · cases d.elements[id.index]? <;> simp [hf]
  · rfl

theorem bodyOwner?_eq_none {d : Draft} {body : ElementId} (h : d.bodyOwner? body = none) {i : Nat}
    {r : Rule} (hr : d.rules[i]? = some r) : r.body? ≠ some body := by
  have hmem : r ∈ d.rules := Array.mem_of_getElem? hr
  have hall := Array.find?_eq_none.mp h r hmem
  simpa using hall

/-- Taking in a child keeps the forest, if the child is no younger than its parent. -/
theorem Grown.enclose {d : Draft} {taken : ElementId → List ElementId} (hd : d.Grown taken)
    {parent child : ElementId} (h : (d.enclose parent child).mistake = none)
    (hle : child.index ≤ parent.index) :
    (d.enclose parent child).Grown fun id =>
      if id = parent then taken parent ++ [child] else taken id := by
  obtain ⟨-, hb, hlt, hc, heq⟩ := enclose_cases h
  have hfree : ∀ outer, child ∉ taken outer := by
    intro outer hm
    simp [hd.mem_taken.mp hm] at hc
  rw [heq]
  constructor
  · intro outer inner
    rw [containerOf_modify hlt]
    by_cases hi : inner = child
    · subst hi
      by_cases ho : outer = parent
      · simp [ho]
      · simp [ho, hfree outer, Ne.symm ho]
    · by_cases ho : outer = parent
      · simp [hi, ho, hd.mem_taken]
      · simp [hi, ho, hd.mem_taken]
  · intro id
    split_ifs with hp
    · rw [List.nodup_append]
      refine ⟨hd.nodup parent, by simp, ?_⟩
      intro a ha b hbm
      obtain rfl := List.mem_singleton.mp hbm
      exact fun he => hfree parent (he ▸ ha)
    · exact hd.nodup id
  · intro outer inner hm
    split_ifs at hm with hp
    · subst hp
      rcases List.mem_append.mp hm with hm | hm
      · exact hd.index_le hm
      · rwa [List.mem_singleton.mp hm]
    · exact hd.index_le hm
  · intro i r body hr hbody
    have hroot := hd.root hr hbody
    have hne : body ≠ child := fun he => bodyOwner?_eq_none hb hr (he ▸ hbody)
    rw [containerOf_modify hlt]
    simpa [hne] using hroot
  · exact hd.owner

theorem childrenOf_enclose {d : Draft} {parent child : ElementId}
    (h : (d.enclose parent child).mistake = none) (id : ElementId) :
    (d.enclose parent child).childrenOf id = d.childrenOf id := by
  obtain ⟨-, -, -, -, heq⟩ := enclose_cases h
  rw [heq]
  exact childrenOf_modify fun _ => rfl

theorem mistake_foldl_enclose {parent : ElementId} {children : List ElementId} {d : Draft}
    (h : (children.foldl (·.enclose parent ·) d).mistake = none) : d.mistake = none := by
  induction children generalizing d with
  | nil => exact h
  | cons child children ih => exact (enclose_cases (ih h)).1

theorem Grown.foldl_enclose {parent : ElementId} {children : List ElementId} {d : Draft}
    {taken : ElementId → List ElementId} (hd : d.Grown taken)
    (hsize : d.elements.size = parent.index + 1)
    (h : (children.foldl (·.enclose parent ·) d).mistake = none) :
    (children.foldl (·.enclose parent ·) d).Grown (fun id =>
        if id = parent then taken parent ++ children else taken id) ∧
      ∀ id, (children.foldl (·.enclose parent ·) d).childrenOf id = d.childrenOf id := by
  induction children generalizing d taken with
  | nil =>
    refine ⟨?_, fun _ => rfl⟩
    have heq : (fun id => if id = parent then taken parent ++ [] else taken id) = taken := by
      funext id
      split_ifs with hp <;> simp [*]
    rw [heq]
    exact hd
  | cons child children ih =>
    have hone : (d.enclose parent child).mistake = none := mistake_foldl_enclose h
    obtain ⟨-, -, hlt, -, heq⟩ := enclose_cases hone
    have hgrown := hd.enclose hone (by omega)
    have hsize' : (d.enclose parent child).elements.size = parent.index + 1 := by
      rw [heq]
      simpa using hsize
    obtain ⟨hall, hkeep⟩ := ih hgrown hsize' h
    refine ⟨?_, fun id => (hkeep id).trans (childrenOf_enclose hone id)⟩
    have htaken : (fun id => if id = parent then taken parent ++ child :: children else taken id) =
        fun id => if id = parent then
          (if parent = parent then taken parent ++ [child] else taken parent) ++ children
        else if id = parent then taken parent ++ [child] else taken id := by
      funext id
      rw [if_pos rfl]
      split_ifs <;> simp
    rw [htaken]
    exact hall

/-- A draft without a mistake is a forest. -/
def Sound (d : Draft) : Prop :=
  d.mistake = none → d.Grown d.childrenOf

theorem sound_empty (name : String) : Sound { name } := by
  intro _
  constructor <;> simp [childrenOf, containerOf]

theorem containerOf_push {d : Draft} {kind : ElementKind} {c : Cardinality} (id : ElementId) :
    ({ d with elements := d.elements.push ⟨kind, c, none⟩ } : Draft).containerOf id =
      d.containerOf id := by
  unfold containerOf
  rw [Array.getElem?_push]
  split_ifs with h
  · simp [h]
  · rfl

theorem childrenOf_push {d : Draft} {kind : ElementKind} {c : Cardinality} (id : ElementId) :
    ({ d with elements := d.elements.push ⟨kind, c, none⟩ } : Draft).childrenOf id =
      if id.index = d.elements.size then kind.children else d.childrenOf id := by
  unfold childrenOf
  rw [Array.getElem?_push]
  split_ifs <;> simp [Element.children]

theorem childrenOf_unissued {d : Draft} {id : ElementId} (h : d.elements.size ≤ id.index) :
    d.childrenOf id = [] := by
  simp [childrenOf, Array.getElem?_eq_none h]

theorem Sound.add {d : Draft} (hd : d.Sound) (kind : ElementKind) : (d.add kind).2.Sound := by
  intro h
  let parent : ElementId := ⟨d.elements.size⟩
  let made : Draft := { d with elements := d.elements.push ⟨kind, .once, none⟩ }
  have hmade : made.mistake = none := mistake_foldl_enclose h
  have hold := hd hmade
  have hgrown : made.Grown d.childrenOf := by
    refine ⟨?_, hold.nodup, hold.index_le, ?_, hold.owner⟩
    · intro outer inner
      rw [containerOf_push]
      exact hold.mem_taken
    · intro i r body hr hbody
      obtain ⟨hlt, hc⟩ := hold.root hr hbody
      refine ⟨?_, (containerOf_push body).trans hc⟩
      simp only [made, Array.size_push]
      omega
  have hsize : made.elements.size = parent.index + 1 := by simp [made, parent]
  obtain ⟨hall, hkeep⟩ := hgrown.foldl_enclose hsize h
  have heq : (d.add kind).2.childrenOf = fun id =>
      if id = parent then d.childrenOf parent ++ kind.children else d.childrenOf id := by
    funext id
    rw [show (d.add kind).2.childrenOf id = made.childrenOf id from hkeep id, childrenOf_push]
    by_cases hi : id = parent
    · simp [hi, parent, childrenOf_unissued]
    · have hne : id.index ≠ d.elements.size := fun he => hi (ElementId.ext he)
      simp [hi, hne]
  rw [heq]
  exact hall

theorem containerOf_setCardinality {d : Draft} (id : ElementId) (c : Cardinality)
    (other : ElementId) :
    ({ d with elements := d.elements.modify id.index ({ · with cardinality := c }) } :
      Draft).containerOf other = d.containerOf other := by
  unfold containerOf
  rw [Array.getElem?_modify]
  split_ifs
  · cases d.elements[other.index]? <;> rfl
  · rfl

theorem Sound.setCardinality {d : Draft} (hd : d.Sound) (id : ElementId) (c : Cardinality) :
    (d.setCardinality id c).Sound := by
  intro h
  unfold Draft.setCardinality at h ⊢
  split_ifs at h ⊢ with hlt
  · have hold := hd h
    have hc := containerOf_setCardinality (d := d) id c
    have hch : ({ d with elements := d.elements.modify id.index ({ · with cardinality := c }) } :
        Draft).childrenOf = d.childrenOf := by
      funext other
      exact childrenOf_modify fun _ => rfl
    rw [hch]
    refine ⟨?_, hold.nodup, hold.index_le, ?_, hold.owner⟩
    · intro outer inner
      rw [hc]
      exact hold.mem_taken
    · intro i r body hr hbody
      rw [hc]
      simpa using hold.root hr hbody
  · exact absurd h not_mistake_of_fail

theorem checkBody_cases {d : Draft} {body : ElementId} (h : (d.checkBody body).mistake = none) :
    d.checkBody body = d ∧ body.index < d.elements.size ∧ d.containerOf body = none ∧
      d.bodyOwner? body = none := by
  unfold checkBody at h ⊢
  split at h
  · exact absurd h not_mistake_of_fail
  · rename_i e he
    split_ifs at h with hc
    · exact absurd h not_mistake_of_fail
    · split at h
      · exact absurd h not_mistake_of_fail
      · rename_i hb
        have hlt : body.index < d.elements.size := (Array.getElem?_eq_some_iff.mp he).1
        have hnone : e.container = none := by simpa using hc
        exact ⟨by simp [hc], hlt, by simp [containerOf, he, hnone], hb⟩

theorem checkName_cases {d : Draft} {name : String} (h : (d.checkName name).mistake = none) :
    d.checkName name = d := by
  unfold checkName at h ⊢
  split_ifs at h ⊢
  · exact absurd h not_mistake_of_fail
  · rfl

theorem declare_cases {d : Draft} {rule : Rule} (h : (d.declare rule).2.mistake = none) :
    (d.declare rule).2 = { d with rules := d.rules.push rule } ∧ d.mistake = none ∧
      ∀ body, rule.body? = some body → body.index < d.elements.size ∧
        d.containerOf body = none ∧ d.bodyOwner? body = none := by
  have hname : ((rule.body?.elim d d.checkBody).checkName rule.name).mistake = none := h
  have hsame := checkName_cases hname
  rw [hsame] at hname
  cases hb : rule.body? with
  | none =>
    rw [hb, Option.elim_none] at hsame hname
    exact ⟨by simp only [declare, hb, Option.elim_none, hsame], hname, by simp⟩
  | some body =>
    rw [hb] at hsame hname
    obtain ⟨heq, hlt, hc, hfree⟩ := checkBody_cases hname
    rw [Option.elim_some, heq] at hsame hname
    refine ⟨by simp only [declare, hb, Option.elim_some, heq, hsame], hname, ?_⟩
    intro _ heq
    cases heq
    exact ⟨hlt, hc, hfree⟩

theorem Sound.declare {d : Draft} (hd : d.Sound) (rule : Rule) : (d.declare rule).2.Sound := by
  intro h
  obtain ⟨heq, hm, hbody⟩ := declare_cases h
  have hold := hd hm
  have hget : ∀ {i : Nat} {r : Rule}, (d.rules.push rule)[i]? = some r →
      i = d.rules.size ∧ r = rule ∨ d.rules[i]? = some r := by
    intro i r hr
    rw [Array.getElem?_push] at hr
    split_ifs at hr with hi
    · exact .inl ⟨hi, (Option.some.inj hr).symm⟩
    · exact .inr hr
  rw [heq]
  refine ⟨hold.mem_taken, hold.nodup, hold.index_le, ?_, ?_⟩
  · intro i r body hr hb
    rcases hget hr with ⟨-, rfl⟩ | hr
    · exact ⟨(hbody body hb).1, (hbody body hb).2.1⟩
    · exact hold.root hr hb
  · intro i j r r' body hr hr' hb hb'
    rcases hget hr with ⟨hi, rfl⟩ | hold₁ <;> rcases hget hr' with ⟨hj, rfl⟩ | hold₂
    · exact hi.trans hj.symm
    · exact absurd hb' (bodyOwner?_eq_none (hbody body hb).2.2 hold₂)
    · exact absurd hb (bodyOwner?_eq_none (hbody body hb').2.2 hold₁)
    · exact hold.owner hold₁ hold₂ hb hb'

theorem Sound.perform {d : Draft} (hd : d.Sound) (command : Command) :
    (d.perform command).2.Sound := by
  cases command with
  | add kind => exact hd.add kind
  | setCardinality id c => exact hd.setCardinality id c
  | declare rule => exact hd.declare rule

theorem Sound.performAll {d : Draft} (hd : d.Sound) (commands : List Command) :
    (d.performAll commands).Sound := by
  induction commands generalizing d with
  | nil => exact hd
  | cons command commands ih => exact ih (hd.perform command)

end Draft

theorem ElementKind.children_link (lookup : String → Option RuleId) (kind : ElementKind) :
    (kind.link lookup).children = kind.children := by
  cases kind <;> rfl

namespace Grammar

theorem element?_link {g : Grammar} (id : ElementId) :
    g.link.element? id =
      (g.element? id).map fun e => { e with kind := e.kind.link g.ruleNamed? } := by
  simp [element?, link]

theorem holds_link {d : Draft} {outer inner : ElementId} :
    (link ⟨d.name, d.elements, d.rules⟩).Holds outer inner ↔ inner ∈ d.childrenOf outer := by
  unfold Holds
  rw [element?_link]
  unfold Draft.childrenOf element?
  cases d.elements[outer.index]? with
  | none => simp
  | some e => simp [Element.children, ElementKind.children_link]

theorem container_link {d : Draft} {outer inner : ElementId} :
    (∃ e, (link ⟨d.name, d.elements, d.rules⟩).element? inner = some e ∧
      e.container = some outer) ↔ d.containerOf inner = some outer := by
  rw [element?_link]
  unfold Draft.containerOf element?
  cases d.elements[inner.index]? <;> simp

/-- Every grammar that has been built is a forest. -/
theorem forest_of_build {name : String} {commands : List Command} {g : Grammar}
    (h : Grammar.build name commands = .ok g) : Forest g := by
  let d := Draft.performAll { name } commands
  have hm : d.mistake = none := by
    cases hm : d.mistake with
    | none => rfl
    | some e => rw [Grammar.build, Draft.finish_eq_error_iff.mpr hm] at h; cases h
  have hd : d.Grown d.childrenOf := (Draft.sound_empty name).performAll commands hm
  have hg : g = link ⟨d.name, d.elements, d.rules⟩ := by
    rw [Grammar.build, Draft.finish] at h
    rw [hm] at h
    exact (Except.ok.inj h).symm
  subst hg
  constructor
  · intro outer inner
    rw [holds_link, container_link]
    exact hd.mem_taken
  · intro id e he
    rw [element?_link] at he
    obtain ⟨f, hf, rfl⟩ := Option.map_eq_some_iff.mp he
    have hn := hd.nodup id
    simp only [Draft.childrenOf] at hn
    rw [show d.elements[id.index]? = some f from hf] at hn
    simpa [Element.children, ElementKind.children_link] using hn
  · intro outer inner ho
    exact hd.index_le (holds_link.mp ho)
  · intro rule body h
    obtain ⟨r, hr, hb⟩ := h
    obtain ⟨hlt, hc⟩ := hd.root hr hb
    have hget : (⟨d.name, d.elements, d.rules⟩ : Grammar).element? body =
        some d.elements[body.index] := Array.getElem?_eq_getElem hlt
    rw [Draft.containerOf, show d.elements[body.index]? = _ from hget] at hc
    rw [element?_link, hget]
    exact ⟨_, rfl, hc⟩
  · intro rule rule' body h h'
    obtain ⟨r, hr, hb⟩ := h
    obtain ⟨r', hr', hb'⟩ := h'
    exact RuleId.ext (hd.owner hr hr' hb hb')

end Grammar

end GrammarLookahead
