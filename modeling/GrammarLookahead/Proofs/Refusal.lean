import GrammarLookahead.Proofs.Arena
import Mathlib.Data.List.Induction

namespace GrammarLookahead

namespace Draft

open Command

variable {d : Draft} {e : DraftError}

theorem enclose_eq (d : Draft) (parent child : ElementId) :
    (∃ e, d.enclose parent child = d.fail e) ∨ d.enclose parent child =
      { d with elements := d.elements.modify child.index ({ · with container := some parent }) } := by
  unfold Draft.enclose
  split_ifs
  · exact .inl ⟨_, rfl⟩
  · split
    · exact .inl ⟨_, rfl⟩
    · split
      · exact .inl ⟨_, rfl⟩
      · exact .inr rfl

theorem setCardinality_eq (d : Draft) (id : ElementId) (c : Cardinality) :
    (∃ e, d.setCardinality id c = d.fail e) ∨ d.setCardinality id c =
      { d with elements := d.elements.modify id.index ({ · with cardinality := c }) } := by
  unfold Draft.setCardinality
  split_ifs
  · exact .inr rfl
  · exact .inl ⟨_, rfl⟩

theorem checkBody_eq (d : Draft) (body : ElementId) :
    (∃ e, d.checkBody body = d.fail e) ∨ d.checkBody body = d := by
  unfold checkBody
  split
  · exact .inl ⟨_, rfl⟩
  · split_ifs
    · exact .inl ⟨_, rfl⟩
    · split
      · exact .inl ⟨_, rfl⟩
      · exact .inr rfl

theorem checkName_eq (d : Draft) (name : String) :
    (∃ e, d.checkName name = d.fail e) ∨ d.checkName name = d := by
  unfold checkName
  split_ifs
  · exact .inl ⟨_, rfl⟩
  · exact .inr rfl

theorem mistake_fail_of_some (hm : d.mistake = some e) (e' : DraftError) :
    (d.fail e').mistake = some e := by
  simp [mistake_fail, hm]

theorem mistake_enclose_of_some (hm : d.mistake = some e) (parent child : ElementId) :
    (d.enclose parent child).mistake = some e := by
  rcases enclose_eq d parent child with ⟨e', heq⟩ | heq
  · rw [heq]
    exact mistake_fail_of_some hm e'
  · rw [heq]
    exact hm

theorem mistake_setCardinality_of_some (hm : d.mistake = some e) (id : ElementId) (c : Cardinality) :
    (d.setCardinality id c).mistake = some e := by
  rcases setCardinality_eq d id c with ⟨e', heq⟩ | heq
  · rw [heq]
    exact mistake_fail_of_some hm e'
  · rw [heq]
    exact hm

theorem mistake_checkBody_of_some (hm : d.mistake = some e) (body : ElementId) :
    (d.checkBody body).mistake = some e := by
  rcases checkBody_eq d body with ⟨e', heq⟩ | heq
  · rw [heq]
    exact mistake_fail_of_some hm e'
  · rwa [heq]

theorem mistake_checkName_of_some (hm : d.mistake = some e) (name : String) :
    (d.checkName name).mistake = some e := by
  rcases checkName_eq d name with ⟨e', heq⟩ | heq
  · rw [heq]
    exact mistake_fail_of_some hm e'
  · rwa [heq]

theorem mistake_declare_of_some (hm : d.mistake = some e) (rule : Rule) :
    (d.declare rule).2.mistake = some e := by
  have hbody : (rule.body?.elim d d.checkBody).mistake = some e := by
    cases rule.body? with
    | none => exact hm
    | some body => exact mistake_checkBody_of_some hm body
  exact mistake_checkName_of_some hbody rule.name

theorem size_enclose (d : Draft) (parent child : ElementId) :
    (d.enclose parent child).elements.size = d.elements.size := by
  rcases enclose_eq d parent child with ⟨e, heq⟩ | heq
  · rw [heq]
    rfl
  · rw [heq]
    exact Array.size_modify

theorem size_foldl_enclose (d : Draft) (parent : ElementId) (children : List ElementId) :
    (children.foldl (·.enclose parent ·) d).elements.size = d.elements.size := by
  induction children generalizing d with
  | nil => rfl
  | cons child children ih => rw [List.foldl_cons, ih, size_enclose]

theorem size_setCardinality (d : Draft) (id : ElementId) (c : Cardinality) :
    (d.setCardinality id c).elements.size = d.elements.size := by
  rcases setCardinality_eq d id c with ⟨e, heq⟩ | heq
  · rw [heq]
    rfl
  · rw [heq]
    exact Array.size_modify

theorem elements_checkBody (d : Draft) (body : ElementId) :
    (d.checkBody body).elements = d.elements := by
  rcases checkBody_eq d body with ⟨e, heq⟩ | heq
  · rw [heq]
    rfl
  · rw [heq]

theorem elements_checkName (d : Draft) (name : String) :
    (d.checkName name).elements = d.elements := by
  rcases checkName_eq d name with ⟨e, heq⟩ | heq
  · rw [heq]
    rfl
  · rw [heq]

theorem elements_declare (d : Draft) (rule : Rule) : (d.declare rule).2.elements = d.elements := by
  have hbody : (rule.body?.elim d d.checkBody).elements = d.elements := by
    cases rule.body? with
    | none => rfl
    | some body => exact elements_checkBody d body
  rw [declare, elements_checkName, hbody]

/-- An element that is made counts also when it is a mistake. -/
theorem size_perform (command : Command) :
    (d.perform command).2.elements.size = d.elements.size + (kinds [command]).length := by
  cases command with
  | add kind =>
    have hsize : (d.perform (.add kind)).2.elements.size = d.elements.size + 1 :=
      (size_foldl_enclose _ _ _).trans (Array.size_push _)
    rw [hsize]
    rfl
  | setCardinality id c =>
    exact size_setCardinality d id c
  | declare rule => exact congrArg Array.size (elements_declare d rule)

theorem size_performAll (name : String) (commands : List Command) :
    (Draft.performAll { name } commands).elements.size = (kinds commands).length := by
  induction commands using List.reverseRecOn with
  | nil => rfl
  | append_singleton commands command ih =>
    have hstep := size_perform (d := Draft.performAll { name } commands) command
    rw [ih, ← length_kinds_append] at hstep
    rwa [performAll_append]

end Draft

end GrammarLookahead
