import GrammarLookahead.Proofs.LeftRecursion.Complete
import GrammarLookahead.Proofs.LeftRecursion.Order

namespace GrammarLookahead

/-- No element is an action. -/
def Grammar.ActionFree (g : Grammar) : Prop :=
  ∀ id e typeName feature, g.element? id = some e → e.kind ≠ .action typeName feature

/-- The element is an action. -/
def ElementKind.isAction : ElementKind → Bool
  | .action _ _ => true
  | _ => false

theorem Grammar.actionFree_iff {g : Grammar} :
    g.ActionFree ↔ ∀ e ∈ g.elements.toList, e.kind.isAction = false := by
  constructor
  · intro h e he
    obtain ⟨index, hindex⟩ := List.getElem?_of_mem he
    have hget : g.element? ⟨index⟩ = some e := by simpa [element?] using hindex
    cases hk : e.kind with
    | action typeName feature => exact absurd hk (h ⟨index⟩ e typeName feature hget)
    | _ => rfl
  · intro h id e typeName feature he hk
    have hnot := h e (Array.mem_toList_iff.mpr (Array.mem_of_getElem? he))
    simp [hk, ElementKind.isAction] at hnot

instance (g : Grammar) : Decidable g.ActionFree :=
  decidable_of_iff _ Grammar.actionFree_iff.symm

theorem Grammar.ActionFree.not_plays {g : Grammar} (h : g.ActionFree) {id : ElementId} :
    ¬ g.Plays id .action := by
  intro hp
  obtain ⟨e, _, _, he, hk⟩ := hp.kind_action
  exact h id e _ _ he hk

theorem Grammar.ActionFree.plain {g : Grammar} (h : g.ActionFree) (id : ElementId) : g.Plain id :=
  fun _ _ => h.not_plays

/-- An exploration in the state will not come to the element: it has been visited, or it belongs to
a rule that is not explored any more. -/
def Settled (g : Grammar) (s : Exploration) (id : ElementId) : Prop :=
  id ∈ s.visited ∨ ∃ rule body, g.IsBody rule body ∧ g.Encloses body id ∧ rule ∈ s.memo ∧
    body ∉ s.visited

/-- The element is settled, unless its rule leads to an action. -/
def Noted (g : Grammar) (s : Exploration) (id : ElementId) : Prop :=
  g.InPlainRule id → Settled g s id

variable {g : Grammar} {s t : Exploration} {id : ElementId}

namespace Noted

theorem advance (h : Noted g s id) {T : ElementId → Prop} (ha : Advance g T s t) :
    Noted g t id := by
  intro hid
  rcases h hid with hv | ⟨rule, body, hb, he, hm, hn⟩
  · exact .inl (ha.visited id hv)
  · refine .inr ⟨rule, body, hb, he, ha.mem_memo hm, fun hv => ?_⟩
    rcases ha.uncalled hb hv with hs | hm'
    · exact hn hs
    · exact hm' hm

theorem stable : Stable g (Noted g) where
  advance ha h := h.advance ha
  handOn h := h
  memoize h hid := by
    rcases h hid with hv | ⟨rule', body, hb, he, hm, hn⟩
    · exact .inl hv
    · exact .inr ⟨rule', body, hb, he, by simp [Exploration.memoize, hm], hn⟩

theorem enter (s : Exploration) (id : ElementId) : Noted g (s.enter id) id :=
  fun _ => .inl (Exploration.mem_enter.mpr (.inl rfl))

end Noted

/-- An element that an exploration may enter is not settled. -/
theorem Visitable.not_settled {path : List ElementId} (h : Visitable g path id s)
    (hn : id ∉ s.visited) : ¬ Settled g s id := by
  intro hcases
  rcases hcases with hv | ⟨rule, body, hb, he, hm, hnb⟩
  · exact hn hv
  · rcases Relation.ReflTransGen.cases_tail he with rfl | ⟨outer, he', ho⟩
    · exact h.uncalled hb hm
    · exact hnb (h.coherent.visited_of_encloses he' (h.coherent.visited outer (h.outer ho)))

theorem Explores.isOptional_seen {depth path found}
    (h : Explores g depth path (.openings id) s (some found) t) (hid : g.InPlainRule id)
    (hs : Orderly g (Noted g) s) (ht : Orderly g (Noted g) t) (hc : s.context.Faithful g) :
    (t.context.seen g id).isOptional = (g.written id).isOptional := by
  have hmark : ¬ t.context.Marks id := by
    intro hk
    have hleaf := (ht.marks hk).1
    generalize ha : some found = a at h
    cases h with
    | revisit => cases ha
    | leaf hv hn _ => exact hv.not_settled hn ((hs.marks hk).2 hid)
    | closed _ _ hp => cases hp.unique hleaf
    | sequence _ _ hp => cases hp.unique hleaf
    | choice _ _ hp => cases hp.unique hleaf
    | action _ _ hp => cases hp.unique hleaf
    | known _ _ hp => cases hp.unique hleaf
    | called _ _ hp => cases hp.unique hleaf
  have hiff := (h.faithful hc).isOptional_seen id
  rw [or_iff_left hmark] at hiff
  exact Bool.eq_iff_iff.mpr hiff

/-- All that the task leads to is led to by the body of a rule without actions ahead. -/
structure Task.Direct (g : Grammar) (task : Task) : Prop where
  direct : ∀ found, task.LeadsTo g found → g.Direct found
  ne_continuations : ∀ id, task ≠ .continuations id

namespace Task.Direct

variable {rest : List ElementId}

theorem openings (h : g.Direct id) : Task.Direct g (.openings id) where
  direct found heq := by
    subst heq
    exact h
  ne_continuations := by simp

theorem of_leads {task : Task} (h : Task.Direct g (.openings id))
    (hl : ∀ found, task.LeadsTo g found → g.Leads id found)
    (hne : ∀ id, task ≠ .continuations id) : Task.Direct g task where
  direct found hf := (h.direct id rfl).leads (hl found hf)
  ne_continuations := hne

theorem sequence_head (h : Task.Direct g (.sequence (id :: rest))) :
    Task.Direct g (.openings id) :=
  openings (h.direct id (Task.leadsTo_cons.mpr (.inl rfl)))

theorem sequence_tail (h : Task.Direct g (.sequence (id :: rest)))
    (ho : (g.written id).isOptional = true) : Task.Direct g (.sequence rest) where
  direct found hf := h.direct found (Task.leadsTo_cons.mpr (.inr ⟨ho, hf⟩))
  ne_continuations := by simp

theorem branches_head (h : Task.Direct g (.branches (id :: rest))) :
    Task.Direct g (.openings id) :=
  openings (h.direct id List.mem_cons_self)

theorem branches_tail (h : Task.Direct g (.branches (id :: rest))) :
    Task.Direct g (.branches rest) where
  direct found hf := h.direct found (List.mem_cons_of_mem _ hf)
  ne_continuations := by simp

end Task.Direct

/-- In rules that lead to no action, an exploration comes to know only of elements that are noted.
So it never meets a mark on an element of such a rule that it is about to enter. -/
theorem Explores.knows_direct (hg : g.Forest) {depth path task a}
    (h : Explores g depth path task s a t) (htask : task.Direct g) (hm : s.memo.Listing g)
    (hc : s.context.Faithful g) (hs : Orderly g (Noted g) s) : Knows g (Noted g) t a := by
  have hP : Stable g (Noted g) := Noted.stable
  induction h with
  | revisit => exact .none hs
  | leaf hv hn _ => exact .singleton (hs.enter hP hv hn) (Noted.enter _ _)
  | closed hv hn _ => exact .nil (hs.enter hP hv hn)
  | sequence hv hn hp h ih =>
    have htask' := htask.of_leads (fun _ => Task.leads_of_sequence hp) (by simp)
    exact (ih htask' hm hc (hs.enter hP hv hn)).handOn hP (h.leaves hm).1
  | @choice _ _ _ _ ids _ _ hv hn hp h ih =>
    have htask' : Task.Direct g (.branches ids) :=
      htask.of_leads (fun _ => Grammar.leads_of_choice hp) (by simp)
    exact (ih htask' hm hc (hs.enter hP hv hn)).handOn hP (h.leaves hm).1
  | action _ _ hp => exact absurd hp (htask.direct _ rfl).not_action
  | known hv hn _ hmv => exact .verdict hs hP hv hn hmv
  | called hv hn hp _ h ih =>
    have htask' := htask.of_leads (fun _ => Task.leads_of_call hp) (by simp)
    exact ((ih htask' hm hc (hs.enter hP hv hn)).handOn hP (h.leaves hm).1).memoize hP
  | sequenceNil | branchesNil => exact .nil hs
  | sequenceNone _ ih => exact .none (ih htask.sequence_head hm hc hs).toOrderly
  | sequenceStop _ _ ih => exact ih htask.sequence_head hm hc hs
  | sequenceStep h ho hr ih ih' =>
    have hk := ih htask.sequence_head hm hc hs
    have hid := (htask.sequence_head.direct _ rfl).inPlainRule
    rw [h.isOptional_seen hid hs hk.toOrderly hc] at ho
    have htail := htask.sequence_tail ho
    exact hk.both hP (hr.advance hg) (ih' htail (h.leaves hm).2 (h.faithful hc) hk.toOrderly)
  | branchesCons h hr ih ih' =>
    have hk := ih htask.branches_head hm hc hs
    have htail := htask.branches_tail
    exact hk.both hP (hr.advance hg) (ih' htail (h.leaves hm).2 (h.faithful hc) hk.toOrderly)
  | _ => exact absurd rfl (htask.ne_continuations _)

end GrammarLookahead
