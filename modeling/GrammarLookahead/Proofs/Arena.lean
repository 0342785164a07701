import GrammarLookahead.Proofs.Construction
import Mathlib.Data.List.Induction
import Mathlib.Data.List.Nodup

namespace GrammarLookahead

namespace Command

/-- The kind of the element that the command makes. -/
def made? : Command → Option ElementKind
  | .add kind => some kind
  | _ => none

/-- The cardinality that the command writes at the element. -/
def written? (id : ElementId) : Command → Option Cardinality
  | .setCardinality other c => if other = id then some c else none
  | _ => none

/-- The kinds of the elements that the commands make, in the order in which they are made. -/
def kinds (commands : List Command) : List ElementKind :=
  commands.filterMap made?

/-- The cardinality that the commands write last at the element; it occurs once if they write
none. -/
def lastWritten (commands : List Command) (id : ElementId) : Cardinality :=
  (commands.filterMap (written? id)).getLast?.getD .once

theorem kinds_concat (commands : List Command) (command : Command) :
    kinds (commands ++ [command]) = kinds commands ++ command.made?.toList := by
  cases h : command.made? <;> simp [kinds, h]

theorem length_kinds_append (first second : List Command) :
    (kinds (first ++ second)).length = (kinds first).length + (kinds second).length := by
  rw [kinds, List.filterMap_append, List.length_append, kinds, kinds]

theorem lastWritten_concat (commands : List Command) (command : Command) (id : ElementId) :
    lastWritten (commands ++ [command]) id =
      (command.written? id).getD (lastWritten commands id) := by
  cases h : command.written? id <;> simp [lastWritten, h]

end Command

/-- What is written at an element: all of it but its container. -/
def Element.text (e : Element) : ElementKind × Cardinality :=
  (e.kind, e.cardinality)

namespace Draft

open Command

def text? (d : Draft) (id : ElementId) : Option (ElementKind × Cardinality) :=
  (d.elements[id.index]?).map Element.text

theorem text?_enclose (d : Draft) (parent child id : ElementId) :
    (d.enclose parent child).text? id = d.text? id := by
  unfold enclose
  split_ifs
  · rfl
  · split
    · rfl
    · split
      · rfl
      · simp only [text?, Array.getElem?_modify]
        split_ifs
        · cases d.elements[id.index]? <;> rfl
        · rfl

theorem text?_foldl_enclose (d : Draft) (parent : ElementId) (children : List ElementId)
    (id : ElementId) : (children.foldl (·.enclose parent ·) d).text? id = d.text? id := by
  induction children generalizing d with
  | nil => rfl
  | cons child children ih => rw [List.foldl_cons, ih, text?_enclose]

theorem text?_add (d : Draft) (kind : ElementKind) (id : ElementId) :
    (d.add kind).2.text? id =
      if id.index = d.elements.size then some (kind, .once) else d.text? id := by
  rw [add, text?_foldl_enclose, text?, Array.getElem?_push]
  split_ifs <;> rfl

theorem text?_setCardinality (d : Draft) (other id : ElementId) (c : Cardinality) :
    (d.setCardinality other c).text? id =
      if other = id then (d.text? id).map fun text => (text.1, c) else d.text? id := by
  unfold setCardinality
  by_cases hlt : other.index < d.elements.size
  · rw [if_pos hlt, text?, Array.getElem?_modify]
    by_cases hi : other = id
    · subst hi
      simp only [text?]
      cases d.elements[other.index]? <;> rfl
    · have hne : other.index ≠ id.index := fun he => hi (ElementId.ext he)
      simp [hi, hne, text?]
  · rw [if_neg hlt]
    split_ifs with hi
    · subst hi
      simp [text?, fail, Array.getElem?_eq_none (Nat.le_of_not_lt hlt)]
    · rfl

/-- The elements of the draft are those that the commands have made, with the cardinalities that the
commands have written last; nothing has been written at an element before it was made. -/
structure Records (d : Draft) (commands : List Command) : Prop where
  text : ∀ id, d.text? id =
    ((kinds commands)[id.index]?).map fun kind => (kind, lastWritten commands id)
  unwritten : ∀ {id : ElementId}, (kinds commands).length ≤ id.index →
    lastWritten commands id = .once

variable {d : Draft} {commands : List Command}

theorem mistake_perform {command : Command} (h : (d.perform command).2.mistake = none) :
    d.mistake = none := by
  cases command with
  | add kind =>
    let made : Draft := { d with elements := d.elements.push ⟨kind, .once, none⟩ }
    exact (mistake_foldl_enclose h : made.mistake = none)
  | setCardinality id c =>
    have hset : (d.setCardinality id c).mistake = none := h
    unfold setCardinality at hset
    split_ifs at hset
    · exact hset
    · exact absurd hset not_mistake_of_fail
  | declare rule => exact (declare_cases h).2.1

theorem records_empty (name : String) : Records { name } [] where
  text := by simp [text?, kinds]
  unwritten := by simp [lastWritten]

namespace Records

theorem size (hd : d.Records commands) : d.elements.size = (kinds commands).length := by
  have hiff : ∀ n : Nat, n < d.elements.size ↔ n < (kinds commands).length := by
    intro n
    have htext := Bool.eq_iff_iff.mp (congrArg Option.isSome (hd.text ⟨n⟩))
    simpa [text?] using htext
  have h := hiff d.elements.size
  have h' := hiff (kinds commands).length
  omega

theorem add (hd : d.Records commands) (kind : ElementKind) :
    (d.add kind).2.Records (commands ++ [.add kind]) := by
  have hkinds : kinds (commands ++ [.add kind]) = kinds commands ++ [kind] :=
    kinds_concat commands (.add kind)
  have hlast : ∀ id, lastWritten (commands ++ [.add kind]) id = lastWritten commands id :=
    fun id => lastWritten_concat commands (.add kind) id
  constructor
  · intro id
    rw [text?_add, hd.text, hd.size, hkinds, hlast, List.getElem?_append]
    split_ifs with heq hlt hlt
    · omega
    · simp [heq, hd.unwritten (Nat.le_of_eq heq.symm)]
    · rfl
    · have hgt : 1 ≤ id.index - (kinds commands).length := by omega
      have hge : (kinds commands).length ≤ id.index := by omega
      simp [List.getElem?_eq_none hge, List.getElem?_eq_none (l := [kind]) hgt]
  · intro id hle
    rw [hkinds, List.length_append] at hle
    rw [hlast, hd.unwritten (Nat.le_of_add_right_le hle)]

theorem setCardinality (hd : d.Records commands) {id : ElementId} {c : Cardinality}
    (h : (d.setCardinality id c).mistake = none) :
    (d.setCardinality id c).Records (commands ++ [.setCardinality id c]) := by
  have hlt : id.index < d.elements.size := by
    unfold Draft.setCardinality at h
    split_ifs at h with hlt
    · exact hlt
    · exact absurd h not_mistake_of_fail
  have hkinds : kinds (commands ++ [.setCardinality id c]) = kinds commands := by
    rw [kinds_concat]
    simp [made?]
  have hlast : ∀ other, lastWritten (commands ++ [.setCardinality id c]) other =
      if id = other then c else lastWritten commands other := by
    intro other
    rw [lastWritten_concat, written?]
    split_ifs <;> rfl
  constructor
  · intro other
    rw [text?_setCardinality, hd.text, hkinds, hlast]
    split_ifs
    · cases (kinds commands)[other.index]? <;> rfl
    · rfl
  · intro other hle
    have hne : id ≠ other := by
      intro heq
      rw [hkinds, ← hd.size, ← heq] at hle
      omega
    rw [hlast, if_neg hne]
    exact hd.unwritten (hkinds ▸ hle)

theorem declare (hd : d.Records commands) {rule : Rule} (h : (d.declare rule).2.mistake = none) :
    (d.declare rule).2.Records (commands ++ [.declare rule]) := by
  obtain ⟨heq, -, -⟩ := declare_cases h
  have hkinds : kinds (commands ++ [.declare rule]) = kinds commands := by
    rw [kinds_concat]
    simp [made?]
  have hlast : ∀ id, lastWritten (commands ++ [.declare rule]) id = lastWritten commands id :=
    fun id => lastWritten_concat commands (.declare rule) id
  constructor
  · intro id
    rw [heq, hkinds, hlast]
    exact hd.text id
  · intro id hle
    rw [hlast]
    exact hd.unwritten (hkinds ▸ hle)

theorem perform (hd : d.Records commands) {command : Command}
    (h : (d.perform command).2.mistake = none) :
    (d.perform command).2.Records (commands ++ [command]) := by
  cases command with
  | add kind => exact hd.add kind
  | setCardinality id c => exact hd.setCardinality h
  | declare rule => exact hd.declare h

theorem performAll (name : String) (h : (Draft.performAll { name } commands).mistake = none) :
    (Draft.performAll { name } commands).Records commands := by
  induction commands using List.reverseRecOn with
  | nil => exact records_empty name
  | append_singleton commands command ih =>
    rw [performAll_append] at h ⊢
    exact (ih (mistake_perform h)).perform h

end Records

end Draft

/-- What the arena of a grammar is, given the commands that built it. -/
structure Grammar.ArenaOf (g : Grammar) (commands : List Command) : Prop where
  /-- An element is in a container exactly if it is one of the children of the container. -/
  container_iff : ∀ {inner outer}, g.container inner = .ok (some outer) ↔
    ∃ children, g.children outer = .ok children ∧ inner ∈ children
  /-- No element is a child twice, neither in one list of children nor in two. -/
  nodup_children : (g.elements.toList.flatMap Element.children).Nodup
  issued_child : ∀ {outer children}, g.children outer = .ok children → children ⊆ g.elementIds
  issued_body : ∀ {rule body}, g.IsBody rule body → body ∈ g.elementIds
  /-- Containers are not older than what they contain. -/
  container_le : ∀ {inner outer}, g.container inner = .ok (some outer) → inner ≤ outer
  /-- Only an element that was given itself as a child is its own container. -/
  container_self : ∀ {id}, g.container id = .ok (some id) →
    ∃ kind, (Command.kinds commands)[id.index]? = some kind ∧ id ∈ kind.children
  nodup_bodies : (g.rules.toList.filterMap Rule.body?).Nodup
  container_body : ∀ {rule body}, g.IsBody rule body → g.container body = .ok none
  size : g.elements.size = (Command.kinds commands).length
  /-- An element has the kind that it was made with, save for the target of a call, and the
  cardinality that was written at it last. -/
  text : ∀ {id e}, g.element? id = some e → ∃ kind,
    (Command.kinds commands)[id.index]? = some kind ∧ e.kind = kind.link g.ruleNamed? ∧
      e.cardinality = Command.lastWritten commands id

namespace Grammar

variable {g : Grammar} {commands : List Command}

theorem container_eq_ok_iff {inner : ElementId} {outer? : Option ElementId} :
    g.container inner = .ok outer? ↔ ∃ e, g.element? inner = some e ∧ e.container = outer? := by
  cases he : g.element? inner <;> simp [container, element, he]

theorem children_eq_ok_iff {outer : ElementId} {children : List ElementId} :
    g.children outer = .ok children ↔ ∃ e, g.element? outer = some e ∧ e.children = children := by
  cases he : g.element? outer <;> simp [Grammar.children, element, he]

theorem holds_iff_children {outer inner : ElementId} :
    g.Holds outer inner ↔ ∃ children, g.children outer = .ok children ∧ inner ∈ children := by
  constructor
  · intro h
    obtain ⟨e, he, hm⟩ := h
    exact ⟨_, children_eq_ok_iff.mpr ⟨e, he, rfl⟩, hm⟩
  · intro h
    obtain ⟨_, hc, hm⟩ := h
    obtain ⟨e, he, rfl⟩ := children_eq_ok_iff.mp hc
    exact ⟨e, he, hm⟩

theorem mem_elementIds_of {id : ElementId} {e : Element} (he : g.element? id = some e) :
    id ∈ g.elementIds :=
  mem_elementIds.mpr (Array.getElem?_eq_some_iff.mp he).1

namespace Forest

theorem container_iff (hg : g.Forest) {inner outer : ElementId} :
    g.container inner = .ok (some outer) ↔ g.Holds outer inner :=
  container_eq_ok_iff.trans hg.holds_iff.symm

theorem nodup_children (hg : g.Forest) : (g.elements.toList.flatMap Element.children).Nodup := by
  rw [List.nodup_flatMap]
  constructor
  · intro e he
    obtain ⟨i, hi, rfl⟩ := List.mem_iff_getElem.mp he
    have hget : g.element? ⟨i⟩ = some g.elements.toList[i] := by simp [element?]
    exact hg.nodup hget
  · rw [List.pairwise_iff_getElem]
    intro i j hi hj hij inner hm hm'
    have hholds : g.Holds ⟨i⟩ inner := ⟨_, by simp [element?], hm⟩
    have hholds' : g.Holds ⟨j⟩ inner := ⟨_, by simp [element?], hm'⟩
    have heq := congrArg ElementId.index (hg.holds_unique hholds hholds')
    simp only at heq
    omega

theorem nodup_bodies (hg : g.Forest) : (g.rules.toList.filterMap Rule.body?).Nodup := by
  rw [List.Nodup, List.pairwise_filterMap, List.pairwise_iff_getElem]
  intro i j hi hj hij body hb body' hb' heq
  subst heq
  have hbody : g.IsBody ⟨i⟩ body := ⟨_, by simp [rule?], hb⟩
  have hbody' : g.IsBody ⟨j⟩ body := ⟨_, by simp [rule?], hb'⟩
  have heq := congrArg RuleId.index (hg.owner hbody hbody')
  simp only at heq
  omega

end Forest

/-- The elements of a grammar that has been built are those that the commands have recorded. -/
theorem text_of_build {name : String} (h : Grammar.build name commands = .ok g) :
    g.elements.size = (Command.kinds commands).length ∧
      ∀ {id e}, g.element? id = some e → ∃ kind,
        (Command.kinds commands)[id.index]? = some kind ∧ e.kind = kind.link g.ruleNamed? ∧
          e.cardinality = Command.lastWritten commands id := by
  unfold Grammar.build Draft.finish at h
  split at h
  · cases h
  · rename_i hm
    cases h
    have hd := Draft.Records.performAll name hm
    refine ⟨by simpa [link] using hd.size, ?_⟩
    intro id e he
    rw [element?_link] at he
    obtain ⟨f, hf, rfl⟩ := Option.map_eq_some_iff.mp he
    have hget : (Draft.performAll { name } commands).elements[id.index]? = some f := hf
    have htext := hd.text id
    rw [Draft.text?, hget, Option.map_some, eq_comm] at htext
    obtain ⟨kind, hkind, heq⟩ := Option.map_eq_some_iff.mp htext
    obtain ⟨rfl, hc⟩ := Prod.mk.inj heq
    exact ⟨f.kind, hkind, rfl, hc.symm⟩

end Grammar

/-- In a grammar that has been built, containers and children say the same, nothing is a child
twice, and all elements are as the commands have made them. -/
theorem arenaOf_of_build {name : String} {commands : List Command} {g : Grammar}
    (h : Grammar.build name commands = .ok g) : g.ArenaOf commands := by
  have hg := Grammar.forest_of_build h
  obtain ⟨hsize, htext⟩ := Grammar.text_of_build h
  have hissued : ∀ {outer inner}, g.Holds outer inner → inner ∈ g.elementIds := by
    intro outer inner ho
    obtain ⟨e, he, -⟩ := hg.holds_iff.mp ho
    exact Grammar.mem_elementIds_of he
  constructor
  · exact hg.container_iff.trans Grammar.holds_iff_children
  · exact hg.nodup_children
  · intro outer children hc inner hm
    exact hissued (Grammar.holds_iff_children.mpr ⟨children, hc, hm⟩)
  · intro rule body hb
    obtain ⟨e, he, -⟩ := hg.root hb
    exact Grammar.mem_elementIds_of he
  · intro inner outer hc
    exact hg.index_le (hg.container_iff.mp hc)
  · intro id hc
    obtain ⟨e, he, hm⟩ := hg.container_iff.mp hc
    obtain ⟨kind, hkind, hlink, -⟩ := htext he
    rw [Element.children, hlink, ElementKind.children_link] at hm
    exact ⟨kind, hkind, hm⟩
  · exact hg.nodup_bodies
  · intro rule body hb
    exact Grammar.container_eq_ok_iff.mpr (hg.root hb)
  · exact hsize
  · exact htext

/-- A keyword at which a cardinality is written twice, a group that is given itself as a child beside
the keyword, and the rule `R: R`. -/
def encircling : List Command :=
  [.add (.keyword "k"), .setCardinality ⟨0⟩ .optional, .add (.group [⟨0⟩, ⟨1⟩]),
    .setCardinality ⟨0⟩ .zeroOrMore, .add (.ruleCall "R" none []),
    .declare (.parser { name := "R", body := some ⟨2⟩ })]

def encircled : Grammar where
  name := "G"
  elements := #[⟨.keyword "k", .zeroOrMore, some ⟨1⟩⟩, ⟨.group [⟨0⟩, ⟨1⟩], .once, some ⟨1⟩⟩,
    ⟨.ruleCall "R" (some ⟨0⟩) [], .once, none⟩]
  rules := #[.parser { name := "R", body := some ⟨2⟩ }]

theorem arenaOf_encircled :
    Grammar.build "G" encircling = .ok encircled ∧ encircled.ArenaOf encircling := by
  have hbuild : Grammar.build "G" encircling = .ok encircled := by decide +kernel
  exact ⟨hbuild, arenaOf_of_build hbuild⟩

end GrammarLookahead
